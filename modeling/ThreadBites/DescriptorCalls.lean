import ThreadBites.DescriptorCreate

/-!
# Waiting, joining, detaching and releasing

With these the invariant holds of every state that a run reaches, if its steps
are orderly.
-/
namespace ThreadBites.Threads

open Transition WaitQueue

variable {τ δ : Type} {main : τ} {s : State τ δ}

theorem Status.detach {v : Desc δ} {r : Record τ} {x : Bool} {q : Phase} (h : Status v r x q)
    (hv : v.joinStatus ≠ .joinableFixed) :
    Status { v with joinStatus := .detached } { r with detached := true } x q ∧ v.joiner = none := by
  have hj : v.joiner = none := by
    by_contra hj
    exact hv (h.joined hj).1
  refine ⟨{
    detached := fun _ => rfl
    kept := fun _ => .inl rfl
    joined := fun hn => absurd hj hn
    heir := h.heir
    releasing := fun _ => rfl
    gone := h.gone
    passed := h.passed
    failed := h.failed
    failing := h.failing
    returned := h.returned }, hj⟩

theorem joinError_none [DecidableEq δ] {s : Shared τ δ} {t : τ} {d : δ} (h : joinError s t d = none) :
    d ≠ s.self t ∧ d ∈ s.used ∧ (s.mem d).joinStatus ≠ .detached ∧ (s.mem d).joiner = none ∧
      (s.mem (s.self t)).joiner ≠ some d := by
  unfold joinError at h
  split at h
  · cases h
  split at h
  · cases h
  split at h
  · cases h
  split at h
  · cases h
  split at h
  · cases h
  rename_i hself hused hdetached hmutual hjoiner
  exact ⟨hself, by simpa using hused, hdetached, by simpa using hjoiner, hmutual⟩

/-- A thread that is not on its way to release its descriptor is detached if the descriptor says so. -/
theorem Status.not_detached {v : Desc δ} {r : Record τ} {x : Bool} {q : Phase} (h : Status v r x q)
    (hv : v.joinStatus ≠ .detached) (hq : q ≠ .releasing) : r.detached = false := by
  by_contra hd
  rcases h.kept (by simpa using hd) with hs | hp
  · exact hv hs
  · exact hq hp

variable [DecidableEq τ]

/-- `wait_for_thread` reads the word. -/
theorem Inv.readTid (h : Inv main s) {t : τ} {d : δ} {w : Waiter τ} (hpc : s.pc t = .readTid d w) :
    Inv main (s.goto t (if (s.mem d).tid = 0 then afterWait d w else .waitTid d (s.mem d).tid w)) := by
  have hl : Lien s.toShared t d w := by
    have := h.placed t
    rwa [hpc] at this
  have hp : s.phase t = .running := by rw [State.phase, hpc]; rfl
  have hsh : ∃ calls values, s.toShared = { s.toShared with calls := calls, values := values } ∧
      ∀ v ∈ values, ValueOk s.toShared s.phase v := ⟨s.calls, s.values, rfl, h.values⟩
  split
  · rename_i hz
    refine h.goto (by rw [phase_afterWait, hp]) hsh (placed_afterWait hl fun u hu => ?_)
    rcases h.word_of_lien hl hu with ⟨hd, -⟩ | ⟨-, -, hne⟩
    · exact hd
    · exact absurd hz hne
  · rename_i hz
    refine h.goto (by rw [hp]; rfl) hsh ⟨hl, hz, ?_⟩
    cases hn : s.last d with
    | none => exact absurd (Lien.word_of_none (h.desc d).lent hl hn) hz
    | some u =>
      refine ⟨u, rfl, fun hnd => ?_⟩
      rcases h.word_of_lien hl hn with ⟨hd, -⟩ | ⟨-, hid, -⟩
      · exact absurd hd hnd
      · exact hid.symm

/-- `FUTEX_WAIT` compares the word with the id that was read. -/
theorem Inv.waitTid (h : Inv main s) {t : τ} {d : δ} {k : BitVec 32} {w : Waiter τ} (hpc : s.pc t = .waitTid d k w) :
    Inv main (s.goto t (if (s.mem d).tid = k then .asleep d k w else afterWait d w)) := by
  obtain ⟨hl, hne, u, hu, hid⟩ : Lien s.toShared t d w ∧ Waiting s.toShared s.phase d k := by
    have := h.placed t
    rwa [hpc] at this
  have hp : s.phase t = .running := by rw [State.phase, hpc]; rfl
  have hsh : ∃ calls values, s.toShared = { s.toShared with calls := calls, values := values } ∧
      ∀ v ∈ values, ValueOk s.toShared s.phase v := ⟨s.calls, s.values, rfl, h.values⟩
  have hword := h.word_of_lien hl hu
  split
  · rename_i hk
    refine h.goto (by rw [hp]; rfl) hsh ⟨hl, ⟨hne, u, hu, hid⟩, fun he => ?_⟩
    rcases hword with ⟨-, hz⟩ | ⟨hnd, -, -⟩
    · exact hne (hk.symm.trans hz)
    · exact hnd (he u hu)
  · rename_i hk
    refine h.goto (by rw [phase_afterWait, hp]) hsh (placed_afterWait hl fun v hv => ?_)
    rw [hu] at hv
    cases hv
    rcases hword with ⟨hd, -⟩ | ⟨hnd, ht, -⟩
    · exact hd
    · exact absurd (ht.trans (hid hnd)) hk

/-- The value that a join stores is what its thread passed on. -/
theorem Inv.readRetval (h : Inv main s) {t : τ} {d : δ} {o : Option τ} (hpc : s.pc t = .readRetval d o) :
    Inv main (s.move (s.value t d o) t (.release (some d) (.join o))) := by
  obtain ⟨hl, hended⟩ : Lien s.toShared t d (.join o) ∧ Ended s.toShared s.phase d := by
    have := h.placed t
    rwa [hpc] at this
  refine h.goto (by rw [State.phase, hpc]; rfl) ⟨s.calls, _, rfl, fun v hv => ?_⟩ ⟨hl, hended⟩
  rcases List.mem_cons.mp hv with rfl | hv
  · obtain ⟨u, rfl, hr, hheir⟩ := hl
    have hdead := hended u ((h.desc d).lent u hr)
    have hst := (h.desc d).status u hr
    refine ⟨u, rfl, hdead, hst.passed ?_⟩
    refine (hst.gone (by rw [hdead]; rfl)).resolve_right fun hf => ?_
    exact (hst.joined (hst.heir (by rw [hheir]; simp)).1).2 (hst.failed.mp hf)
  · exact h.values v hv

/-- The process ends in a create that has no descriptor, or in the initial thread. -/
theorem Inv.crash (h : Inv main s) {o : Option τ} (ho : ∀ u, o = some u → u = main) :
    Inv main { s with toShared := (s.toShared.count o).crash } := by
  have hrecord := count_record s.toShared o
  rw [count_eq s.toShared o]
  generalize (s.toShared.count o).record = record at hrecord
  have hother : ∀ u, u ≠ main → record u = s.record u := by
    intro u hu
    rw [hrecord]
    by_cases hou : o = some u
    · exact absurd (ho u hou) hu
    · simp [hou]
  have hphase : (State.mk (Shared.crash { s.toShared with record := record }) s.pc).phase = s.phase := rfl
  refine ⟨{ h.lists with }, ?_, fun d => ?_, fun u => ?_, fun t => ?_, fun v hv => ?_⟩
  · rw [hphase]
    exact { h.initial with }
  · rw [hphase]
    exact (h.desc d).congr rfl rfl rfl fun u hu =>
      ⟨rfl, rfl, hother u ((h.desc d).created u hu).2.1, rfl, rfl⟩
  · rw [hphase]
    have ht := h.thread u
    have hmaker : (record u).maker = (s.record u).maker := by rw [hrecord]
    by_cases hu : u = main
    · exact ⟨fun t hm => ht.made t (hmaker.symm.trans hm), ht.active, ht.leaving, ht.early, fun hne => absurd hu hne⟩
    · exact ht.congr rfl hmaker (by rw [show (Shared.crash { s.toShared with record := record }).record u = record u from rfl,
        hother u hu]) rfl rfl Iff.rfl fun _ hl => hl
  · rw [hphase]
    exact (h.placed t).frame { Frame.refl s.toShared s.phase t with
      made := fun u hm => by
        rw [show (Shared.crash { s.toShared with record := record }).record u = record u from rfl, hrecord]
        exact ⟨rfl, hm, rfl, rfl, fun hs => hs⟩
      heir := fun _ u _ hm => by
        rw [show (Shared.crash { s.toShared with record := record }).record u = record u from rfl, hrecord]
        exact hm } fun _ _ => id
  · rw [hphase]
    exact (h.values v hv).same fun u hu => ⟨hu, by
      rw [show (Shared.crash { s.toShared with record := record }).record u = record u from rfl, hrecord]⟩

variable [DecidableEq δ]

theorem Inv.detached (h : Inv main s) {t : τ} {d : δ} (hpc : s.pc t = .user)
    (he : detachError s.toShared d = none) : Inv main (s.move (s.detach d) t .user) := by
  obtain ⟨hused, hfixed⟩ : d ∈ s.used ∧ (s.mem d).joinStatus ≠ .joinableFixed := by
    unfold detachError at he
    split at he
    · cases he
    · rename_i hu
      split at he
      · cases he
      · rename_i hf
        exact ⟨by simpa using hu, hf⟩
  have hd := h.desc d
  have hin := (h.lists.used d).mp hused
  have hp := phase_move_same s (s.detach d) (t := t) (p := .user) (by rw [State.phase, hpc])
  by_cases hl : ∃ u, s.role d = .lent u
  · obtain ⟨u, hr⟩ := hl
    have hlast := hd.lent u hr
    obtain ⟨hst, hjoiner⟩ := (hd.status u hr).detach hfixed
    have hsh : s.detach d = (s.setMem d { s.mem d with joinStatus := .detached }).note u
        fun r => { r with detached := true } := by
      unfold Shared.detach
      rw [hr]
    generalize hnew : s.detach d = sh at *
    have hmem : sh.mem d = { s.mem d with joinStatus := .detached } := by
      simp [hsh, Shared.setMem, Shared.note]
    have hrecord : sh.record u = { s.record u with detached := true } := by
      simp [hsh, Shared.setMem, Shared.note]
    have hw : Writes s.toShared sh d u := by
      rw [hsh]
      exact (Writes.refl ..).setMem.note (fun _ => rfl) fun _ => rfl
    have hexiting : sh.exiting = s.exiting := by rw [hsh]; rfl
    refine h.write hw hp (Lives.refl _) (fun _ _ => rfl)
      (fun e he => ((h.desc e).created u he).1.symm.trans (hd.created u hlast).1) ?_ ?_ trivial ?_ fun _ => by rw [hrecord]
    · refine hd.write_lent hw (Lives.refl _) hr ?_ ?_ ?_
      · rw [hmem, hrecord]
        exact hd.word u hlast
      · intro _
        rw [hmem]
        exact hjoiner
      · rw [hmem, hrecord, hexiting]
        exact hst
    · exact (h.thread u).congr (by rw [hw.self]) (by rw [hrecord]) (by rw [hrecord]) (by rw [hexiting]) rfl
        (by rw [hw.role]) fun _ hl => by rw [hw.last]; exact hl
    · refine ⟨fun w _ hh => ?_, fun w _ _ => by rw [hrecord]; exact ⟨rfl, rfl, fun hs => hs⟩,
        fun w _ hh => by rw [hrecord]; exact hh⟩
      rw [hr] at hh; cases hh
  · -- the descriptor has no thread yet, so no record changes
    have hsh : s.detach d = s.setMem d { s.mem d with joinStatus := .detached } := by
      unfold Shared.detach
      split
      · rename_i u hr
        exact absurd ⟨u, hr⟩ hl
      · rfl
    have hmem : (s.detach d).mem d = { s.mem d with joinStatus := .detached } := by
      simp [hsh, Shared.setMem]
    rw [hsh] at hmem hp ⊢
    have hw : Writes s.toShared (s.setMem d { s.mem d with joinStatus := .detached }) d main :=
      (Writes.refl ..).setMem
    refine h.write hw hp (Lives.refl _) (fun _ _ => rfl)
      (fun e he => absurd rfl ((h.desc e).created main he).2.1) ?_
      ((h.thread main).congr rfl rfl rfl rfl rfl Iff.rfl fun _ hl => hl) trivial ?_ fun _ => rfl
    · refine hd.write hw (Lives.refl _) ?_ ?_ ?_ ?_ fun w hr => absurd ⟨w, hr⟩ hl
      · intro w hu
        rw [hmem]
        exact hd.word w hu
      · intro _ _
        rw [hmem]
      · intro w hb
        rw [hmem]
        exact { hd.blank w hb with status := by simp }
      · intro w hu hdet
        rw [hmem]
        exact hd.unjoined w hu hdet
    · refine ⟨fun w _ hh => ?_, fun _ _ _ => ⟨rfl, rfl, id⟩, fun _ _ hh => hh⟩
      rw [hh] at hin; cases hin

theorem Inv.joined (h : Inv main s) {t : τ} {d : δ} (hpc : s.pc t = .user) (he : joinError s.toShared t d = none)
    (hok : Orderly s (.join t d)) :
    Inv main (s.move ((s.called t d 0).join t d) t (.readTid d (.join (s.last d)))) := by
  obtain ⟨hself, hused, hdetached, hjoiner, -⟩ := joinError_none he
  have hjoinable := hok hself hused hdetached hjoiner
  unfold Joinable at hjoinable
  split at hjoinable
  · rename_i u hr
    obtain ⟨hborn, hreleasing, hstart⟩ := hjoinable
    have hd := h.desc d
    have hlast := hd.lent u hr
    have hst := hd.status u hr
    have hnot := hst.not_detached hdetached hreleasing
    have hfailed : (s.record u).failed = false := by
      by_contra hf
      exact hstart (hst.failed.mp (by simpa using hf))
    have hp := phase_move_same s ((s.called t d 0).join t d) (t := t) (p := .readTid d (.join (s.last d)))
      (by rw [State.phase, hpc]; rfl)
    have hsh : (s.called t d 0).join t d = (({ s.toShared with calls := ⟨t, u, (s.record u).detached, 0⟩ :: s.calls }
        : Shared τ δ).setMem d { s.mem d with joinStatus := .joinableFixed, joiner := some (s.self t) }).note u
          fun r => { r with heir := some t } := by
      simp only [Shared.called, hlast, Shared.join]
    generalize (s.called t d 0).join t d = sh at *
    have hmem : sh.mem d = { s.mem d with joinStatus := .joinableFixed, joiner := some (s.self t) } := by
      simp [hsh, Shared.setMem, Shared.note]
    have hrecord : sh.record u = { s.record u with heir := some t } := by
      simp [hsh, Shared.setMem, Shared.note]
    have hw : Writes s.toShared sh d u := by
      rw [hsh]
      have hcalls : Writes s.toShared { s.toShared with calls := ⟨t, u, (s.record u).detached, 0⟩ :: s.calls } d u :=
        { Writes.refl s.toShared d u with }
      exact hcalls.setMem.note (fun _ => rfl) fun _ => rfl
    have hexiting : sh.exiting = s.exiting := by rw [hsh]; rfl
    refine h.write hw hp (Lives.refl _) (fun _ _ => rfl)
      (fun e he => ((h.desc e).created u he).1.symm.trans (hd.created u hlast).1) ?_ ?_ ?_ ?_ fun _ => by rw [hrecord]
    · refine hd.write_lent hw (Lives.refl _) hr ?_ ?_ ?_
      · rw [hmem, hrecord]
        exact hd.word u hlast
      · intro hdet
        rw [hrecord] at hdet
        exact absurd (hnot.symm.trans hdet) Bool.false_ne_true
      · rw [hmem, hrecord, hexiting]
        exact {
          hst with
          detached := by simp
          kept := fun hdet => absurd (hnot.symm.trans hdet) Bool.false_ne_true
          joined := fun _ => ⟨rfl, hstart⟩
          heir := fun _ => ⟨by simp, hborn⟩
          failing := fun hf => absurd (hfailed.symm.trans hf) Bool.false_ne_true }
    · exact (h.thread u).congr (by rw [hw.self]) (by rw [hrecord]) (by rw [hrecord]) (by rw [hexiting]) rfl
        (by rw [hw.role]) fun _ hl => by rw [hw.last]; exact hl
    · exact ⟨u, hlast, by rw [hw.role]; exact hr, by rw [hrecord]⟩
    · refine ⟨fun w _ hh => ?_, fun w _ _ => by rw [hrecord]; exact ⟨rfl, rfl, fun hs => hs⟩, fun w _ hh => ?_⟩
      · rw [hr] at hh; cases hh
      · exact absurd hjoiner (hst.heir (by rw [hh]; simp)).1
  · cases hjoinable

theorem Inv.release (h : Inv main s) {t : τ} {desc : Option δ} {r : Releaser τ} (hpc : s.pc t = .release desc r) :
    Inv main (release s t desc r) := by
  have hplaced := h.placed t
  rw [hpc] at hplaced
  cases desc with
  | none =>
    rw [show r = .unstarted from hplaced]
    exact h.crash fun u hu => by cases hu
  | some d =>
    have hd := h.desc d
    have hused : ∀ {role}, s.role d = role → role.inUsed = true → d ∈ s.used := fun hr hi => by
      rw [h.lists.used, hr]
      exact hi
    cases r with
    | exit =>
      have hself : d = s.self t := hplaced
      have hp : s.phase t = .releasing := by rw [State.phase, hpc]; rfl
      by_cases ht : t = main
      · have hnot : d ∉ s.used := by
          rw [h.lists.used, hself, ht, h.initial.role]
          simp [Role.inUsed]
        simp only [Threads.release, hnot, if_false]
        exact h.crash fun u hu => (Option.some.inj hu).symm.trans ht
      · have hr : s.role d = .lent t := hself ▸ (h.thread t).active ht (by rw [hp]; rfl)
        have hst := hd.status t hr
        rw [hp] at hst
        have hjoiner := hd.unjoined t (hd.lent t hr) (hst.releasing rfl)
        simp only [Threads.release, hused hr rfl, if_true]
        have hph : (s.move ((s.toShared.count (some t)).recycle d) t .leaving).phase =
            Function.update s.phase t .leaving := phase_move _ _ _ _
        refine h.recycle hph (fun w => ?_) (fun w hw => ?_) hr (fun u hu => ?_) (fun u w hu hw => ?_) trivial
        · by_cases hwt : w = t
          · subst w; simp [hp]
          · simp [hwt]
        · have hwt : w ≠ t := fun hwt => hw (by rw [hwt]; rfl)
          simp [hwt]
        · cases hu
          exact .inr ⟨hp, by simp⟩
        · cases hu
          rintro (hh | ⟨-, hf⟩)
          · exact (hst.heir (by rw [hh]; simp)).1 hjoiner
          · have := (hst.failing hf).1
            simp [Phase.early, Phase.gone] at this
    | unstarted =>
      have hr : s.role d = .blank t := hplaced
      simp only [Threads.release, hused hr rfl, if_true]
      exact h.recycle (o := none) (phase_move_same _ _ (by rw [State.phase, hpc]; rfl)) (Lives.refl _) (fun _ _ => rfl) hr
        (fun u hu => by cases hu) (fun u w hu => by cases hu) trivial
    | failed u =>
      obtain ⟨⟨hr, hmaker, hfailed, -⟩, hended⟩ := hplaced
      have hst := hd.status u hr
      have hjoiner := (hst.failing hfailed).2.2.1
      simp only [Threads.release, hused hr rfl, if_true]
      refine h.recycle (o := some u) (phase_move_same _ _ (by rw [State.phase, hpc]; rfl)) (Lives.refl _)
        (fun _ _ => rfl) hr (fun v hv => ?_) (fun v w hv hw => ?_) trivial
      · cases hv
        exact .inl (hended u (hd.lent u hr))
      · cases hv
        rintro (hh | ⟨hm, -⟩)
        · exact (hst.heir (by rw [hh]; simp)).1 hjoiner
        · rw [hmaker] at hm
          exact hw (Option.some.inj hm).symm
    | join o =>
      obtain ⟨⟨u, rfl, hr, hheir⟩, hended⟩ := hplaced
      have hst := hd.status u hr
      simp only [Threads.release, hused hr rfl, if_true]
      refine h.recycle (o := some u) (phase_move_same _ _ (by rw [State.phase, hpc]; rfl)) (Lives.refl _)
        (fun _ _ => rfl) hr (fun v hv => ?_) (fun v w hv hw => ?_) trivial
      · cases hv
        exact .inl (hended u (hd.lent u hr))
      · cases hv
        rintro (hh | ⟨-, hf⟩)
        · rw [hheir] at hh
          exact hw (Option.some.inj hh).symm
        · exact (hst.joined (hst.heir (by rw [hheir]; simp)).1).2 (hst.failed.mp hf)

end ThreadBites.Threads
