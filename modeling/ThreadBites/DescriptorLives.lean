import ThreadBites.DescriptorMoves

/-!
# Threads that start and threads that end

A clone lends a blank descriptor to a thread. A thread that ends clears the word
of the descriptor it used last, and whoever slept on it goes on.
-/
namespace ThreadBites.Threads

open Transition WaitQueue

variable {τ δ : Type} {main : τ} {s : State τ δ}

/-- A thread that used a descriptor is not one that is not born. -/
theorem Inv.created_ne (h : Inv main s) {u w : τ} {e : δ} (hu : s.phase u = .unborn) (hw : s.last e = some w) :
    w ≠ u := by
  rintro rfl
  exact ((h.desc e).created w hw).2.2.1 hu

theorem phase_afterWait (d : δ) (c : Waiter τ) : (afterWait d c : Pc τ δ).phase = .running := by
  cases c <;> rfl

/-- A thread whose wait is over. -/
theorem placed_afterWait {s : Shared τ δ} {ph : τ → Phase} {t : τ} {d : δ} {c : Waiter τ} (h : Lien s t d c)
    (he : Ended s ph d) : Placed s ph t (afterWait d c) := by
  cases c with
  | reuse attr => exact ⟨h.1, he⟩
  | failed u => exact ⟨h, he⟩
  | join o => exact ⟨h, he⟩

/-- A descriptor that is about to get a thread. -/
theorem Inv.blank (h : Inv main s) {t : τ} {d : δ} {attr : Attr} (hpc : s.pc t = .clone d attr) :
    s.role d = .blank t ∧ Blank (s.mem d) := by
  have hr : s.role d = .blank t := by
    have := h.placed t
    rwa [hpc] at this
  exact ⟨hr, (h.desc d).blank t hr⟩

variable [DecidableEq δ]

/-- Who slept on the word of a thread goes on, and nobody else moves. -/
theorem pc_woken (pc : τ → Pc τ δ) (d : δ) (w : τ) :
    wakeAll (asleepOn d) resume pc w = pc w ∧ asleepOn d (pc w) = false ∨
      ∃ k c, pc w = .asleep d k c ∧ wakeAll (asleepOn d) resume pc w = afterWait d c := by
  cases ha : asleepOn d (pc w) with
  | false => exact .inl ⟨by simp [wakeAll, ha], rfl⟩
  | true =>
    refine .inr ?_
    cases hp : pc w <;> rw [hp] at ha <;> simp only [asleepOn, decide_eq_true_eq, Bool.false_eq_true] at ha
    rename_i e k c
    subst e
    exact ⟨k, c, rfl, by simp [wakeAll, hp, asleepOn, resume]⟩

variable [DecidableEq τ]

theorem Inv.spawn_frame (h : Inv main s) {t u w : τ} {d : δ} {k : BitVec 32} (hr : s.role d = .blank t)
    (hu : s.phase u = .unborn) (hw : w ≠ t) (hwu : w ≠ u) :
    Frame s.toShared (s.spawn t u d k) s.phase (Function.update s.phase u .born) w := by
  have other : ∀ {e r}, s.role e = r → r ≠ .blank t → e ≠ d := by
    rintro e r he hne rfl
    exact hne (he.symm.trans hr)
  have keep : ∀ {e r}, s.role e = r → r ≠ .blank t → Function.update s.role d (.lent u) e = r := fun he hne => by
    simpa [other he hne] using he
  have last : ∀ {e r}, s.role e = r → r ≠ .blank t → Function.update s.last d (some u) e = s.last e := fun he hne => by
    simp [other he hne]
  have record : ∀ {v}, v ≠ u → (s.spawn t u d k).record v = s.record v := fun hv => by
    simp [Shared.spawn, hv]
  exact {
    self := by simp [Shared.spawn, hwu]
    held := fun e he => ⟨keep he (by simp), last he (by simp), fun _ => rfl⟩
    listed := fun e he => keep he (by simp)
    blank := fun e he => keep he (by simp [hw])
    lent := fun e v he _ => ⟨keep he (by simp), last he (by simp)⟩
    made := fun v hv => by
      have hvu : v ≠ u := by
        rintro rfl
        exact ((h.thread v).made w hv).2 hu
      rw [record hvu]
      exact ⟨by simp [Shared.spawn, hvu], hv, rfl, rfl, fun hs => hs⟩
    heir := fun e v he hv => by
      rw [record (h.created_ne hu ((h.desc e).lent v he))]
      exact hv
    id := fun e v he => by simp [Shared.spawn, h.created_ne hu he]
    dead := fun v hv => by
      have hvu : v ≠ u := by
        rintro rfl
        rw [hu] at hv; cases hv
      simpa [hvu] using hv }

/-- The descriptor of a new thread. -/
theorem Inv.desc_spawned (h : Inv main s) {t u : τ} {d : δ} {k : BitVec 32} (hblank : Blank (s.mem d))
    (hunborn : s.phase u = .unborn) (hk : k ≠ 0) :
    DescOk main (s.spawn t u d k) (Function.update s.phase u .born) d := by
  have humain : u ≠ main := by
    rintro rfl
    exact h.initial.born hunborn
  have hearly : s.exiting u = false := (h.thread u).early (by rw [hunborn]; rfl)
  have only : ∀ {w}, (s.spawn t u d k).last d = some w → w = u := fun hw => by
    simpa [Shared.spawn, eq_comm] using hw
  have hstatus : Status (s.mem d) ((s.spawn t u d k).record u) (s.exiting u) .born := by
    rw [hearly]
    refine ⟨?_, ?_, ?_, ?_, ?_, ?_, ?_, ?_, ?_, ?_⟩ <;>
      simp [Shared.spawn, Record.empty, hblank.joiner, hblank.start, Phase.gone]
  exact {
    lent := fun w hw => by simpa [Shared.spawn] using hw
    unused := fun hw => by simp [Shared.spawn] at hw
    created := fun w hw => by
      rw [only hw]
      exact ⟨by simp [Shared.spawn], humain, by simp, by simpa [Shared.spawn] using hk⟩
    setup := fun w v _ hv => by simp [Shared.spawn] at hv
    word := fun w hw => by
      rw [only hw]
      simp [Word, Shared.spawn, Record.empty, hblank.tid]
    freeWord := fun hf => by simp [Shared.spawn] at hf
    blank := fun v hv => by simp [Shared.spawn] at hv
    unjoined := fun w _ _ => hblank.joiner
    status := fun w hw => by
      have hw : w = u := by simpa [Shared.spawn, eq_comm] using hw
      subst w
      rw [Function.update_self]
      exact hstatus }

/-- The threads when there is a new one. -/
theorem Inv.thread_spawned (h : Inv main s) {t u w : τ} {d : δ} {k : BitVec 32} (hr : s.role d = .blank t)
    (hunborn : s.phase u = .unborn) :
    ThreadOk main (s.spawn t u d k) (Function.update s.phase u .born) w := by
  have humain : u ≠ main := by
    rintro rfl
    exact h.initial.born hunborn
  have hw := h.thread w
  by_cases hwu : w = u
  · subst w
    exact {
      made := fun _ _ => ⟨humain, by simp⟩
      active := fun _ _ => by simp [Shared.spawn]
      leaving := fun _ hl => by simp at hl
      early := fun _ => hw.early (by rw [hunborn]; rfl)
      releases := fun _ => by simp [Shared.spawn, Record.empty] }
  · refine hw.congr (by simp [Shared.spawn, hwu]) (by simp [Shared.spawn, hwu]) (by simp [Shared.spawn, hwu]) rfl
      (by simp [hwu]) ?_ ?_
    · by_cases hself : s.self w = d
      · have hlent : s.role d ≠ .lent w := by
          rw [hr]
          simp
        rw [hself]
        exact ⟨fun hn => by simp [Shared.spawn, Ne.symm hwu] at hn, fun hn => absurd hn hlent⟩
      · simp [Shared.spawn, hself]
    · intro hl hlast
      by_cases hself : s.self w = d
      · have hdead := (h.desc d).setup w t (hself ▸ hlast) (.inr hr)
        rw [hdead] at hl; cases hl
      · simpa [Shared.spawn, hself] using hlast

/-- A clone succeeds. -/
theorem Inv.cloned (h : Inv main s) {t u : τ} {d : δ} {attr : Attr} {k : BitVec 32}
    (hpc : s.pc t = .clone d attr) (hu : s.pc u = .unborn) (hk : k ≠ 0) :
    Inv main ⟨s.spawn t u d k, Function.update (Function.update s.pc u .born) t (.storeTid d attr u)⟩ := by
  obtain ⟨hr, hblank⟩ := h.blank hpc
  have hunborn : s.phase u = .unborn := by rw [State.phase, hu]; rfl
  have htu : t ≠ u := by
    rintro rfl
    rw [hpc] at hu; cases hu
  have humain : u ≠ main := by
    rintro rfl
    exact h.initial.born hunborn
  have hd : d ≠ s.self main := by
    rintro rfl
    rw [h.initial.role] at hr; cases hr
  have hph : (State.move { s with pc := Function.update s.pc u .born } (s.spawn t u d k) t (.storeTid d attr u)).phase =
      Function.update s.phase u .born := by
    funext w
    by_cases hwt : w = t
    · subst w; simp [State.phase, State.move, htu, hpc, Pc.phase]
    · by_cases hwu : w = u
      · subst w; simp [State.phase, State.move, hwt, Pc.phase]
      · simp [State.phase, State.move, hwt, hwu]
  refine Inv.move (s := { s with pc := Function.update s.pc u .born }) hph ?_ ?_ ?_
    (fun _ => h.thread_spawned hr hunborn) ?_ ?_ ?_
  · have hl := h.lists
    have hused : d ∈ s.used := by simp [hl.used, hr, Role.inUsed]
    have hnf : d ∉ s.free := by simp [hl.free, hr]
    refine hl.assign (d := d) rfl hl.usedNodup hl.freeNodup (fun e => ?_) (fun e => ?_)
      fun e he => hl.ne_of_fresh (by simp [hr]) he
    · by_cases he : e = d <;> simp [he, hused, Role.inUsed, Shared.spawn]
    · by_cases he : e = d <;> simp [he, hnf, Shared.spawn]
  · exact ⟨by simpa [Shared.spawn, humain.symm] using h.initial.heap,
      by simpa [Shared.spawn, humain.symm, hd.symm] using h.initial.role,
      by simpa [humain.symm] using h.initial.born⟩
  · intro e
    by_cases he : e = d
    · subst e
      exact h.desc_spawned hblank hunborn hk
    · refine (h.desc e).congr (by simp [Shared.spawn, he]) (by simp [Shared.spawn, he]) rfl fun w hw => ?_
      have hwu := h.created_ne hunborn hw
      simp [Shared.spawn, hwu]
  · exact ⟨⟨by simp [Shared.spawn], by simp [Shared.spawn], by simp [Shared.spawn, Record.empty],
      by simp [Shared.spawn, Record.empty]⟩, by simp⟩
  · intro w hwt
    show Placed _ _ w (Function.update s.pc u .born w)
    by_cases hwu : w = u
    · subst w
      rw [Function.update_self]
      trivial
    · rw [Function.update_of_ne hwu]
      refine (h.placed w).frame (h.spawn_frame hr hunborn hwt hwu) fun v _ hv => ?_
      by_cases hvu : v = u
      · subst v; simp
      · simpa [hvu] using hv
  · intro v hv
    refine (h.values v hv).same fun w hw => ?_
    have hwu : w ≠ u := by
      rintro rfl
      rw [hunborn] at hw; cases hw
    simp [Shared.spawn, hwu, hw]

omit [DecidableEq δ] in
/-- The descriptor of a thread that leaves was last used by that thread. -/
theorem Inv.last_of_leaving (h : Inv main s) {u w : τ} (hphase : s.phase u = .leaving)
    (hw : s.last (s.self u) = some w) : w = u := by
  by_cases hu : u = main
  · subst u
    rw [(h.desc _).unused h.initial.role] at hw
    cases hw
  · rw [(h.thread u).leaving hu hphase] at hw
    exact (Option.some.inj hw).symm

omit [DecidableEq δ] [DecidableEq τ] in
/-- Other descriptors were last used by other threads. -/
theorem Inv.last_elsewhere (h : Inv main s) {e : δ} {u w : τ} (hw : s.last e = some w) (he : e ≠ s.self u) : w ≠ u := by
  rintro rfl
  exact he ((h.desc e).created w hw).1.symm

/-- Clearing the word of a thread that leaves is nothing to any other thread. -/
theorem Inv.frame_cleared (h : Inv main s) {u : τ} (hphase : s.phase u = .leaving) (w : τ) :
    Frame s.toShared (s.setMem (s.self u) { s.mem (s.self u) with tid := 0 }) s.phase
      (Function.update s.phase u .dead) w where
  self := rfl
  held e he := by
    refine ⟨he, rfl, fun hn => ?_⟩
    by_cases hed : e = s.self u
    · subst e
      by_cases hu : u = main
      · rw [hu, h.initial.role] at he
        cases he
      · rw [(h.thread u).leaving hu hphase] at hn
        cases hn
    · simp [Shared.setMem, hed]
  listed _ he := he
  blank _ he := he
  lent _ _ he _ := ⟨he, rfl⟩
  made _ hm := ⟨rfl, hm, rfl, rfl, fun hs => hs⟩
  heir _ _ _ hh := hh
  id _ _ _ := rfl
  dead v hv := by
    by_cases hvu : v = u
    · subst v
      simp
    · simpa [hvu] using hv

/-- The descriptor of a thread that terminates. -/
theorem Inv.desc_cleared (h : Inv main s) {u : τ} (hphase : s.phase u = .leaving) :
    DescOk main (s.setMem (s.self u) { s.mem (s.self u) with tid := 0 }) (Function.update s.phase u .dead)
      (s.self u) := by
  have hd := h.desc (s.self u)
  have hlast : ∀ {w}, s.last (s.self u) = some w → w = u := h.last_of_leaving hphase
  have hmem : (s.setMem (s.self u) { s.mem (s.self u) with tid := 0 }).mem (s.self u) =
      { s.mem (s.self u) with tid := 0 } := by
    simp [Shared.setMem]
  exact {
    lent := hd.lent
    unused := hd.unused
    created := fun w hw => by
      obtain ⟨hs, hm, -, hi⟩ := hd.created w hw
      exact ⟨hs, hm, by rw [hlast hw]; simp, hi⟩
    setup := fun w v hw _ => by rw [hlast hw]; simp
    word := fun w hw => by
      rw [hlast hw, hmem]
      simp [Word]
    freeWord := fun _ _ => by rw [hmem]
    blank := fun v hv => by
      rw [hmem]
      exact { hd.blank v hv with tid := rfl }
    unjoined := fun w hw hdet => by rw [hmem]; exact hd.unjoined w hw hdet
    status := fun w hw => by
      have hst := hd.status w hw
      have hwu : w = u := hlast (hd.lent w hw)
      subst w
      rw [hphase] at hst
      rw [hmem, Function.update_self]
      exact {
        hst with
        kept := fun hdet => (hst.kept hdet).imp_right fun hp => by cases hp
        heir := fun hh => ⟨(hst.heir hh).1, fun hp => by cases hp⟩
        releasing := fun hp => by cases hp
        gone := fun _ => hst.gone rfl
        failing := fun hf => ⟨.inr rfl, (hst.failing hf).2⟩ } }

/-- The threads when one has terminated. -/
theorem Inv.thread_cleared (h : Inv main s) {u w : τ} :
    ThreadOk main (s.setMem (s.self u) { s.mem (s.self u) with tid := 0 }) (Function.update s.phase u .dead) w := by
  have hw := h.thread w
  by_cases hwu : w = u
  · subst w
    exact {
      made := fun v hv => ⟨(hw.made v hv).1, by simp⟩
      active := fun _ ha => by simp [Phase.active] at ha
      leaving := fun _ hl => by simp at hl
      early := fun he => by simp [Phase.early] at he
      releases := hw.releases }
  · exact hw.congr rfl rfl rfl rfl (by simp [hwu]) Iff.rfl fun _ hl => hl

/-- A thread terminates, and its create does not store its id any more. -/
theorem Inv.terminate (h : Inv main s) {u : τ} (hpc : s.pc u = .leaving)
    (hstored : ∀ v d attr, s.pc v ≠ .storeTid d attr u) :
    Inv main ⟨s.setMem (s.self u) { s.mem (s.self u) with tid := 0 },
      Function.update (wakeAll (asleepOn (s.self u)) resume s.pc) u .dead⟩ := by
  have hphase : s.phase u = .leaving := by rw [State.phase, hpc]; rfl
  have hwoken : ∀ w, (wakeAll (asleepOn (s.self u)) resume s.pc w).phase = s.phase w := by
    intro w
    rcases pc_woken s.pc (s.self u) w with ⟨he, -⟩ | ⟨k, c, hp, he⟩
    · rw [he]; rfl
    · rw [he, phase_afterWait, State.phase, hp]; rfl
  have hph : (State.move { s with pc := wakeAll (asleepOn (s.self u)) resume s.pc }
      (s.setMem (s.self u) { s.mem (s.self u) with tid := 0 }) u .dead).phase = Function.update s.phase u .dead := by
    rw [phase_move]
    congr 1
    funext w
    exact hwoken w
  refine Inv.move (s := { s with pc := wakeAll (asleepOn (s.self u)) resume s.pc }) hph { h.lists with }
    ⟨h.initial.heap, h.initial.role, ?_⟩ ?_ (fun _ => h.thread_cleared) trivial ?_ ?_
  · by_cases hu : main = u
    · rw [hu]; simp
    · simpa [hu] using h.initial.born
  · intro e
    by_cases he : e = s.self u
    · rw [he]
      exact h.desc_cleared hphase
    · refine (h.desc e).congr rfl rfl (by simp [Shared.setMem, he]) fun w hw => ?_
      simp [Shared.setMem, h.last_elsewhere hw he]
  · intro w hwu
    have hp := h.placed w
    show Placed _ _ w (wakeAll (asleepOn (s.self u)) resume s.pc w)
    rcases pc_woken s.pc (s.self u) w with ⟨he, hne⟩ | ⟨k, c, he, hgo⟩
    · rw [he]
      refine hp.frame (h.frame_cleared hphase w) fun v hv hd => ?_
      have hvu : v ≠ u := by
        rintro rfl
        cases hpw : s.pc w <;> rw [hpw] at hv hne <;> first | exact hv | skip
        · cases hv
          exact hstored w _ _ hpw
        · rename_i e k c
          simp only [asleepOn, decide_eq_false_iff_not] at hne
          exact h.last_elsewhere hv hne rfl
      simpa [hvu] using hd
    · rw [hgo]
      rw [he] at hp
      obtain ⟨hl, hr⟩ := hp.1.frame (h.frame_cleared hphase w)
      apply placed_afterWait hl
      intro v hv
      have hlast : s.last (s.self u) = some v := hr ▸ hv
      rw [h.last_of_leaving hphase hlast]
      simp
  · intro v hv
    refine (h.values v hv).same fun w hw => ⟨?_, rfl⟩
    by_cases hwu : w = u
    · subst w; simp
    · simpa [hwu] using hw

end ThreadBites.Threads
