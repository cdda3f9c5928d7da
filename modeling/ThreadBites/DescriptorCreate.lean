import ThreadBites.DescriptorSteps

/-!
# The steps of get_descriptor and tbthread_create

A descriptor goes from `free_desc`, or from `malloc`, to a create that waits for
the thread that used it last, then to `used_desc`, and is cleared and filled.
-/
namespace ThreadBites.Threads

open Transition WaitQueue

variable {τ δ : Type} {main : τ} {s : State τ δ}

/-- What the create that made a thread knows of its descriptor while the thread lives. -/
theorem Inv.making (h : Inv main s) {t u : τ} {d : δ} (hm : Making s.toShared t d u) :
    u ≠ main ∧ s.phase u ≠ .unborn ∧ (∀ e, s.last e = some u → e = d) ∧
      (s.phase u ≠ .dead → s.last d = some u) := by
  obtain ⟨hmaker, hself, -, -⟩ := hm
  obtain ⟨hmain, hborn⟩ := (h.thread u).made t hmaker
  refine ⟨hmain, hborn, fun e he => ?_, fun hd => ?_⟩
  · exact ((h.desc e).created u he).1.symm.trans hself
  · have := h.last_self hmain hborn hd
    rwa [hself] at this

variable [DecidableEq τ] [DecidableEq δ]

theorem Inv.took (h : Inv main s) {t : τ} {attr : Attr} {d : δ} {free : List δ} (hpc : s.pc t = .takeFree attr)
    (hf : s.free = d :: free) : Inv main (s.move (s.takeFree t d free) t (.readTid d (.reuse attr))) := by
  have hl := h.lists
  obtain ⟨hnot, htail⟩ := List.nodup_cons.mp (hf ▸ hl.freeNodup)
  have hr : s.role d = .free := (hl.free d).mp (by rw [hf]; exact List.mem_cons_self ..)
  have hnu : d ∉ s.used := by simp [hl.used, hr, Role.inUsed]
  refine h.assign (d := d) (Assigns.of_role _ s.used free s.heap (.inr (.inl hr)) (.inl rfl))
    (by rw [State.phase, hpc]; rfl) (hl.assign (d := d) rfl hl.usedNodup htail (fun e => ?_) (fun e => ?_) fun e he => ?_)
    h.initial.heap ?_ ?_ (.inl rfl) ?_ ?_
  · by_cases he : e = d <;> simp [he, hnu, Role.inUsed, Shared.takeFree]
  · by_cases he : e = d <;> simp [he, hnot, hf, Shared.takeFree]
  · exact hl.ne_of_fresh (by simp [hr]) he
  · rintro rfl
    rw [h.initial.role] at hr; cases hr
  · intro u w _ hw
    simp [Shared.takeFree] at hw
  · intro w hw
    simp [Shared.takeFree] at hw
  · exact ⟨by simp [Shared.takeFree], fun hn => (h.desc d).freeWord hr hn⟩

theorem Inv.allocate (h : Inv main s) {t : τ} {attr : Attr} {d : δ} (hpc : s.pc t = .allocate attr)
    (hd : d ∉ s.heap) : Inv main (s.move (s.allocate t d) t (.addUsed d attr)) := by
  have hl := h.lists
  have hr : s.role d = .unused := hl.fresh d hd
  have hnu : d ∉ s.used := by simp [hl.used, hr, Role.inUsed]
  have hnf : d ∉ s.free := by simp [hl.free, hr]
  refine h.assign (d := d) (Assigns.of_role _ s.used s.free (d :: s.heap) (.inl hr) (.inl rfl))
    (by rw [State.phase, hpc]; rfl)
    (hl.assign (d := d) rfl hl.usedNodup hl.freeNodup (fun e => ?_) (fun e => ?_) fun e he => ?_)
    (List.mem_cons_of_mem _ h.initial.heap) ?_ ?_ (.inl rfl) ?_ ?_
  · by_cases he : e = d <;> simp [he, hnu, Role.inUsed, Shared.allocate]
  · by_cases he : e = d <;> simp [he, hnf, Shared.allocate]
  · simpa [Shared.allocate] using he
  · rintro rfl
    exact hd h.initial.heap
  · intro u w _ hw
    simp [Shared.allocate] at hw
  · intro w hw
    simp [Shared.allocate] at hw
  · refine ⟨by simp [Shared.allocate], fun u hu => ?_⟩
    have hn : s.last d = none := (h.desc d).unused hr
    rw [show s.last d = some u from hu] at hn
    cases hn

theorem Inv.addUsed (h : Inv main s) {t : τ} {attr : Attr} {d : δ} (hpc : s.pc t = .addUsed d attr) :
    Inv main (s.move (s.addUsed t d) t (.clear d attr)) := by
  have hl := h.lists
  obtain ⟨hr, hended⟩ : s.role d = .held t ∧ Ended s.toShared s.phase d := by
    have := h.placed t
    rwa [hpc] at this
  have hnu : d ∉ s.used := by simp [hl.used, hr, Role.inUsed]
  have hnf : d ∉ s.free := by simp [hl.free, hr]
  have hnodup : (s.used ++ [d]).Nodup := by
    rw [← List.concat_eq_append]
    exact List.Nodup.concat hnu hl.usedNodup
  refine h.assign (d := d) (Assigns.of_role _ (s.used ++ [d]) s.free s.heap (.inr (.inr (.inl hr))) (.inr (.inl rfl)))
    (by rw [State.phase, hpc]; rfl) (hl.assign (d := d) rfl hnodup hl.freeNodup
      (fun e => ?_) (fun e => ?_) fun e he => ?_)
    h.initial.heap ?_ (fun u w hu _ => hended u hu) (.inl rfl) ?_ ?_
  · by_cases he : e = d <;> simp [he, Role.inUsed, Shared.addUsed]
  · by_cases he : e = d <;> simp [he, hnf, Shared.addUsed]
  · exact hl.ne_of_fresh (by simp [hr]) he
  · rintro rfl
    rw [h.initial.role] at hr; cases hr
  · intro w hw
    simp [Shared.addUsed] at hw
  · exact show Function.update s.role d (.listed t) d = .listed t by simp

theorem Inv.clear (h : Inv main s) {t : τ} {attr : Attr} {d : δ} (hpc : s.pc t = .clear d attr) :
    Inv main (s.move (s.clear t d) t (.fill d attr)) := by
  have hl := h.lists
  have hr : s.role d = .listed t := by
    have := h.placed t
    rwa [hpc] at this
  have hused : d ∈ s.used := by simp [hl.used, hr, Role.inUsed]
  have hnf : d ∉ s.free := by simp [hl.free, hr]
  have hended : Ended s.toShared s.phase d := fun u hu => (h.desc d).setup u t hu (.inl hr)
  refine h.assign (d := d) ?_ (by rw [State.phase, hpc]; rfl)
    (hl.assign (d := d) rfl hl.usedNodup hl.freeNodup (fun e => ?_) (fun e => ?_) fun e he => ?_)
    h.initial.heap ?_ (fun u w hu _ => hended u hu) (.inr ⟨by simp [Shared.clear], hended⟩) ?_ ?_
  · exact { Assigns.of_role s.toShared s.used s.free s.heap (.inr (.inr (.inr hr))) (.inr (.inr rfl)) with
      mem := fun e he => by simp [Shared.clear, he] }
  · by_cases he : e = d <;> simp [he, hused, Role.inUsed, Shared.clear]
  · by_cases he : e = d <;> simp [he, hnf, Shared.clear]
  · exact hl.ne_of_fresh (by simp [hr]) he
  · rintro rfl
    rw [h.initial.role] at hr; cases hr
  · intro w _
    simp [Shared.clear]
  · exact show Function.update s.role d (.blank t) d = .blank t by simp

theorem Inv.fill (h : Inv main s) {t : τ} {attr : Attr} {d : δ} (hpc : s.pc t = .fill d attr) :
    Inv main (s.move (s.setMem d ((s.mem d).fill attr)) t (.clone d attr)) := by
  have hr : s.role d = .blank t := by
    have := h.placed t
    rwa [hpc] at this
  have hd := h.desc d
  have hmem : (s.setMem d ((s.mem d).fill attr)).mem d = (s.mem d).fill attr := by simp [Shared.setMem]
  -- no record changes, so it does not matter whose is named
  have hw : Writes s.toShared (s.setMem d ((s.mem d).fill attr)) d main :=
    (Writes.refl ..).setMem
  refine h.write hw (phase_move_same s _ (by rw [State.phase, hpc]; rfl)) (Lives.refl _) (fun _ _ => rfl)
    (fun e he => absurd rfl ((h.desc e).created main he).2.1) ?_
    ((h.thread main).congr rfl rfl rfl rfl rfl Iff.rfl fun _ hl => hl) hr ?_ fun _ => rfl
  · refine hd.write hw (Lives.refl _) ?_ ?_ ?_ ?_ ?_
    · intro w hu
      rw [hmem]
      exact hd.word w hu
    · intro hf
      rw [hr] at hf; cases hf
    · intro w hb
      have hblank := hd.blank w hb
      rw [hmem]
      refine ⟨hblank.tid, hblank.joiner, ?_, ?_⟩
      · cases hs : attr.schedInherit <;> simp [Desc.fill, hs, hblank.start]
      · cases hj : attr.joinable <;> simp [Desc.fill, hj]
    · intro w hu hdet
      rw [hmem]
      exact hd.unjoined w hu hdet
    · intro w hl
      rw [hr] at hl; cases hl
  · refine ⟨fun w _ hh => ?_, fun _ _ _ => ⟨rfl, rfl, id⟩, fun _ _ hh => hh⟩
    rw [hr] at hh; cases hh

theorem Inv.storeTid (h : Inv main s) {t u : τ} {attr : Attr} {d : δ} (hpc : s.pc t = .storeTid d attr u) :
    Inv main (s.move (s.storeTid d u attr) t (if attr.schedInherit then .user else .setSched d u)) := by
  obtain ⟨hmaking, hdead⟩ : Making s.toShared t d u ∧ s.phase u ≠ .dead := by
    have := h.placed t
    rwa [hpc] at this
  obtain ⟨hmain, hborn, hown, hlast⟩ := h.making hmaking
  have hlast := hlast hdead
  obtain ⟨hmaker, hself, hfailed, hreturned⟩ := hmaking
  have hd := h.desc d
  have hmem : (s.storeTid d u attr).mem d = { s.mem d with tid := s.id u } := by
    simp [Shared.storeTid, Shared.setMem, Shared.note]
  have hrecord : (s.storeTid d u attr).record u = { s.record u with stored := true, returned := attr.schedInherit } := by
    simp [Shared.storeTid, Shared.setMem, Shared.note]
  have only : ∀ {w}, s.last d = some w → w = u := fun hw => by
    rw [hlast] at hw
    exact (Option.some.inj hw).symm
  have hw : Writes s.toShared (s.storeTid d u attr) d u :=
    (Writes.refl ..).setMem.note (fun _ => rfl) fun _ => rfl
  have hphase : (if attr.schedInherit then .user else .setSched d u : Pc τ δ).phase = s.phase t := by
    rw [State.phase, hpc]
    cases attr.schedInherit <;> rfl
  refine h.write hw (phase_move_same s _ hphase) (Lives.refl _) (fun _ _ => rfl) hown ?_ ?_ ?_ ?_ fun hdd => absurd hdd hdead
  · refine hd.write hw (Lives.refl _) ?_ ?_ ?_ ?_ ?_
    · intro w hu
      rw [only hu, hmem, hrecord]
      cases hp : s.phase u with
      | dead => exact absurd hp hdead
      | born => exact ⟨.inr rfl, fun _ => rfl⟩
      | _ => rfl
    · intro _ hn
      rw [hlast] at hn; cases hn
    · intro w hb
      exact absurd (hd.setup u w hlast (.inr hb)) hdead
    · intro w hu hdet
      rw [hmem]
      rw [only hu, hrecord] at hdet
      exact hd.unjoined u hlast hdet
    · intro w hl
      have hst := hd.status w hl
      have hwu := only (hd.lent w hl)
      subst w
      rw [hmem, hrecord]
      exact {
        hst with
        heir := fun hh => ⟨(hst.heir hh).1, fun _ => rfl⟩
        failing := fun hf => absurd (hfailed.symm.trans hf) Bool.false_ne_true
        returned := fun _ => rfl }
  · exact (h.thread u).congr rfl (by rw [hrecord]) (by rw [hrecord]) rfl rfl Iff.rfl fun _ hl => hl
  · cases hs : attr.schedInherit with
    | true => trivial
    | false =>
      refine ⟨⟨?_, hself, ?_, ?_⟩, ?_⟩ <;> rw [hrecord]
      · exact hmaker
      · exact hfailed
      · exact hs
  · refine ⟨fun w _ _ hn => ?_, fun w hwt hm => ?_, fun w _ hh => by rw [hrecord]; exact hh⟩
    · rw [hlast] at hn; cases hn
    · rw [hmaker] at hm
      exact absurd (Option.some.inj hm).symm hwt

/-- The scheduling of a thread is set, and nobody gave the descriptor's thread up. -/
theorem Inv.storeOk (h : Inv main s) {t u : τ} {d : δ} (hpc : s.pc t = .storeStart d u true)
    (hstart : (s.mem d).startStatus ≠ .exit) :
    Inv main (s.move (s.storeStart d u true) t (.wakeStart d u true)) := by
  obtain ⟨hmaking, hstored⟩ : Making s.toShared t d u ∧ (s.record u).stored = true := by
    have := h.placed t
    rwa [hpc] at this
  obtain ⟨-, -, hown, -⟩ := h.making hmaking
  have hd := h.desc d
  have hmem : (s.storeStart d u true).mem d = { s.mem d with startStatus := .ok } := by
    simp [Shared.storeStart, Shared.setMem, Shared.note]
  have hrecord : (s.storeStart d u true).record = s.record := by
    have hsame : { s.record u with failed := !true } = s.record u := by
      rw [show (!true) = (s.record u).failed from hmaking.2.2.1.symm]
    show Function.update s.record u { s.record u with failed := !true } = s.record
    rw [hsame, Function.update_eq_self]
  have hw : Writes s.toShared (s.storeStart d u true) d u :=
    (Writes.refl ..).setMem.note (fun _ => rfl) fun _ => rfl
  refine h.write hw (phase_move_same s _ (by rw [State.phase, hpc]; rfl)) (Lives.refl _) (fun _ _ => rfl) hown ?_ ?_ ?_ ?_
    fun _ => by rw [hrecord]
  · refine hd.write hw (Lives.refl _) ?_ ?_ ?_ ?_ ?_
    · intro w hu
      rw [hmem, hrecord]
      exact hd.word w hu
    · intro _ _
      rw [hmem]
    · intro w hb
      rw [hmem]
      exact { hd.blank w hb with start := by simp }
    · intro w hu hdet
      rw [hmem]
      rw [hrecord] at hdet
      exact hd.unjoined w hu hdet
    · intro w hl
      have hst := hd.status w hl
      have hnot : (s.record w).failed = false := by
        by_contra hf
        exact hstart (hst.failed.mp (by simpa using hf))
      rw [hmem, hrecord]
      exact {
        hst with
        joined := fun hj => ⟨(hst.joined hj).1, by simp⟩
        failed := by simp [hnot] }
  · exact (h.thread u).congr rfl (by rw [hrecord]) (by rw [hrecord]) rfl rfl Iff.rfl fun _ hl => hl
  · show Making (s.storeStart d u true) t d u ∧ ((s.storeStart d u true).record u).stored = true
    rw [Making, hrecord]
    exact ⟨hmaking, hstored⟩
  · refine ⟨fun w _ _ _ => by rw [hmem], fun w _ _ => by rw [hrecord]; exact ⟨rfl, rfl, fun hs => hs⟩, fun w _ hh => ?_⟩
    rw [hrecord]
    exact hh

/-- A create gives its thread up, which nobody joins and which does not run yet. -/
theorem Inv.storeFailed (h : Inv main s) {t u : τ} {d : δ} (hpc : s.pc t = .storeStart d u false)
    (hjoiner : (s.mem d).joiner = none) (hearly : (s.phase u).early = true) :
    Inv main (s.move (s.storeStart d u false) t (.wakeStart d u false)) := by
  obtain ⟨hmaking, hstored⟩ : Making s.toShared t d u ∧ (s.record u).stored = true := by
    have := h.placed t
    rwa [hpc] at this
  obtain ⟨hmain, hborn, hown, -⟩ := h.making hmaking
  obtain ⟨hmaker, hself, hfailed, hreturned⟩ := hmaking
  have hactive : (s.phase u).active = true := by
    cases hp : s.phase u <;> rw [hp] at hearly hborn <;> first | rfl | exact absurd rfl hborn | cases hearly
  have hover : (s.phase u).gone = false := by
    cases hp : s.phase u <;> rw [hp] at hearly <;> first | rfl | cases hearly
  have hr : s.role d = .lent u := hself ▸ (h.thread u).active hmain hactive
  have hd := h.desc d
  have hst := hd.status u hr
  have hmem : (s.storeStart d u false).mem d = { s.mem d with startStatus := .exit } := by
    simp [Shared.storeStart, Shared.setMem, Shared.note]
  have hrecord : (s.storeStart d u false).record u = { s.record u with failed := true } := by
    simp [Shared.storeStart, Shared.setMem, Shared.note]
  have hw : Writes s.toShared (s.storeStart d u false) d u :=
    (Writes.refl ..).setMem.note (fun _ => rfl) fun _ => rfl
  refine h.write hw (phase_move_same s _ (by rw [State.phase, hpc]; rfl)) (Lives.refl _) (fun _ _ => rfl) hown ?_ ?_ ?_ ?_
    fun hdead => by rw [hdead] at hearly; cases hearly
  · refine hd.write_lent hw (Lives.refl _) hr ?_ ?_ ?_
    · rw [hmem, hrecord]
      exact hd.word u (hd.lent u hr)
    · intro _
      rw [hmem]
      exact hjoiner
    · rw [hmem, hrecord]
      exact {
        hst with
        joined := fun hj => absurd hjoiner hj
        heir := fun hh => absurd hjoiner (hst.heir hh).1
        gone := fun ho => by rw [hover] at ho; cases ho
        failed := by simp
        failing := fun _ => ⟨.inl hearly, (h.thread u).early hearly, hjoiner, hreturned⟩ }
  · exact (h.thread u).congr rfl (by rw [hrecord]) (by rw [hrecord]) rfl rfl Iff.rfl fun _ hl => hl
  · refine ⟨hr, ?_, ?_, ?_⟩ <;> rw [hrecord]
    · exact hmaker
    · exact hstored
  · refine ⟨fun w _ hh => ?_, fun w hwt hm => ?_, fun w _ hh => by rw [hrecord]; exact hh⟩
    · rw [hr] at hh; cases hh
    · rw [hmaker] at hm
      exact absurd (Option.some.inj hm).symm hwt

/-- Threads that wait for their start go on with it. -/
theorem Inv.woken [Fintype τ] (h : Inv main s) {d : δ} {woken : Option τ} {pc : τ → Pc τ δ}
    (hw : wakeOne (startAsleepOn d) (fun _ => .recheckStart) s.pc woken = some pc) :
    Inv main { s with pc := pc } ∧ ∀ t, (s.pc t).phase = .running → pc t = s.pc t := by
  have hwoken := wakeOne_woken hw
  have hcase : ∀ w, pc w = s.pc w ∨ (s.pc w).phase = .starting ∧ pc w = .recheckStart := by
    intro w
    refine (hwoken w).imp_right fun ⟨ha, hp⟩ => ⟨?_, hp⟩
    cases hpc : s.pc w <;> rw [hpc] at ha <;> first | rfl | cases ha
  have hphase : (State.mk s.toShared pc).phase = s.phase := by
    funext w
    rcases hcase w with hp | ⟨hq, hp⟩
    · show (pc w).phase = (s.pc w).phase
      rw [hp]
    · show (pc w).phase = (s.pc w).phase
      rw [hp, hq]
      rfl
  refine ⟨⟨h.lists, by rw [hphase]; exact h.initial, by rw [hphase]; exact h.desc, by rw [hphase]; exact h.thread,
    fun w => ?_, by rw [hphase]; exact h.values⟩, fun t ht => ?_⟩
  · rw [hphase]
    rcases hcase w with hp | ⟨-, hp⟩
    · show Placed _ _ w (pc w)
      rw [hp]
      exact h.placed w
    · show Placed _ _ w (pc w)
      rw [hp]
      trivial
  · rcases hcase t with hp | ⟨hq, -⟩
    · exact hp
    · rw [ht] at hq; cases hq

theorem Inv.wakeStart [Fintype τ] (h : Inv main s) {t u : τ} {d : δ} {ok : Bool} {woken : Option τ} {pc : τ → Pc τ δ}
    (hpc : s.pc t = .wakeStart d u ok)
    (hw : wakeOne (startAsleepOn d) (fun _ => .recheckStart) s.pc woken = some pc) :
    Inv main ⟨s.note u fun r => { r with returned := ok },
      Function.update pc t (if ok then .user else .readTid d (.failed u))⟩ := by
  obtain ⟨h', hkeep⟩ := h.woken hw
  have hpt : pc t = .wakeStart d u ok := by rw [hkeep t (by rw [hpc]; rfl), hpc]
  have hplaced := h'.placed t
  rw [show (State.mk s.toShared pc).pc t = _ from hpt] at hplaced
  have hmaker : (s.record u).maker = some t := by
    cases ok with
    | true => exact hplaced.1.1
    | false => exact hplaced.2.1
  have hstored : (s.record u).stored = true := by
    cases ok with
    | true => exact hplaced.2
    | false => exact hplaced.2.2.2
  have hmain := (h'.thread u).made t hmaker
  have hrecord : (s.note u fun r => { r with returned := ok }).record u = { s.record u with returned := ok } := by
    simp [Shared.note]
  have hd := h'.desc (s.self u)
  have hw : Writes s.toShared (s.note u fun r => { r with returned := ok }) (s.self u) u :=
    (Writes.refl ..).note (fun _ => rfl) fun _ => rfl
  have hphase : (if ok then .user else .readTid d (.failed u) : Pc τ δ).phase = (State.mk s.toShared pc).phase t := by
    rw [State.phase, show (State.mk s.toShared pc).pc t = _ from hpt]
    cases ok <;> rfl
  have only : ∀ {e w}, s.last e = some w → s.last e = some u → w = u := fun hw hu => by
    rw [hw] at hu
    exact Option.some.inj hu
  refine h'.write hw (phase_move_same _ _ hphase) (Lives.refl _) (fun _ _ => rfl)
    (fun e he => ((h'.desc e).created u he).1.symm) ?_ ?_ ?_ ?_ fun _ => by rw [hrecord]
  · have hstored' : ∀ w, ((s.note u fun r => { r with returned := ok }).record w).stored = (s.record w).stored ∧
        ((s.note u fun r => { r with returned := ok }).record w).detached = (s.record w).detached := by
      intro w
      by_cases hwu : w = u
      · subst w; rw [hrecord]; exact ⟨rfl, rfl⟩
      · rw [hw.record w hwu]; exact ⟨rfl, rfl⟩
    refine hd.write hw (Lives.refl _) ?_ (fun _ _ => rfl) hd.blank ?_ ?_
    · intro w hu
      rw [(hstored' w).1]
      exact hd.word w hu
    · intro w hu hdet
      rw [(hstored' w).2] at hdet
      exact hd.unjoined w hu hdet
    · intro w hl
      have hst := hd.status w hl
      by_cases hwu : w = u
      · subst w
        rw [hrecord]
        exact {
          hst with
          failing := fun hf => by
            obtain ⟨hp, hx, hj, hr⟩ := hst.failing hf
            refine ⟨hp, hx, hj, ?_⟩
            cases ok with
            | true => exact absurd (hplaced.1.2.2.1.symm.trans hf) Bool.false_ne_true
            | false => rfl
          returned := fun _ => hstored }
      · rw [hw.record w hwu]
        exact hst
  · exact (h'.thread u).congr rfl (by rw [hrecord]) (by rw [hrecord]) rfl rfl Iff.rfl fun _ hl => hl
  · cases ok with
    | true => trivial
    | false =>
      obtain ⟨hr, hm, hf, hs⟩ := hplaced
      refine ⟨hr, ?_, ?_, ?_⟩ <;> rw [hrecord]
      · exact hm
      · exact hf
      · exact hs
  · refine ⟨fun _ _ _ _ => rfl, fun w hwt hm => ?_, fun w _ hh => by rw [hrecord]; exact hh⟩
    rw [show (State.mk s.toShared pc).toShared.record u = s.record u from rfl, hmaker] at hm
    exact absurd (Option.some.inj hm).symm hwt

end ThreadBites.Threads
