import ThreadBites.TidWord

/-!
# Every descriptor is released once

`tbthread_exit` sets `TB_JOINABLE_FIXED` before it releases the descriptor of a
detached thread, and a join that comes between the two is let in. Where that does
not happen a descriptor is released by one party, which finds it in `used_desc`.
-/
namespace ThreadBites.Threads

open Transition WaitQueue

variable {τ δ : Type} {main : τ} {s : State τ δ}

/-- In a join of the thread of `d`. -/
def Pc.Joins (d : δ) : Pc τ δ → Prop
  | .readTid e (.join _) | .waitTid e _ (.join _) | .asleep e _ (.join _) => e = d
  | .readRetval e _ | .release (some e) (.join _) => e = d
  | _ => False

/-- Thread `t` is not about to release a descriptor that is in no list. -/
def Pc.Known (main t : τ) : Pc τ δ → Prop
  | .release none _ => False
  | .release (some _) .exit => t ≠ main
  | _ => True

/-- No thread is released twice, no unknown descriptor is, no descriptor is in the lists twice, and a
thread that is detached is not joined. -/
structure ReleasedOnce (main : τ) (s : State τ δ) : Prop where
  once : ∀ u, u ≠ main → (s.record u).releases ≤ 1
  known : s.crashed = false
  lists : (s.used ++ s.free).Nodup
  refused : ∀ j ∈ s.calls, j.detached = true → j.ret = -EINVAL ∨ j.ret = -ESRCH

/-- What is needed beside the invariant: who is named as the joiner of a live thread joins it. -/
structure Calm (main : τ) (s : State τ δ) : Prop where
  running : s.crashed = false
  known : ∀ t, (s.pc t).Known main t
  joiners : ∀ u e, (s.phase u).active = true → (s.mem (s.self u)).joiner = some e →
    ∃ w, s.self w = e ∧ (s.pc w).Joins (s.self u)
  refused : ∀ j ∈ s.calls, j.detached = true → j.ret = -EINVAL ∨ j.ret = -ESRCH

theorem Initial.calm (h : Initial main s) : Calm main s where
  running := h.crashed
  known t := by
    by_cases ht : t = main
    · rw [ht, h.user]; trivial
    · rw [h.unborn t ht]; trivial
  joiners u e hu hj := by
    by_cases hm : u = main
    · rw [hm, h.desc] at hj; cases hj
    · rw [State.phase, h.unborn u hm] at hu; cases hu
  refused j hj := by rw [h.calls] at hj; cases hj

/-- A thread moves from `p` to `q`, stays in its join and comes to no release that is unknown. -/
structure Follows (main t : τ) (p q : Pc τ δ) : Prop where
  known : q.Known main t
  active : q.phase.active = true → p.phase.active = true
  joins : ∀ d, p.Joins d → q.Joins d

/-- No call is added, and nobody is named as a joiner. -/
structure Quiet (s : State τ δ) (sh : Shared τ δ) : Prop where
  running : sh.crashed = s.crashed
  self : sh.self = s.self
  joiner : ∀ d e, (sh.mem d).joiner = some e → (s.mem d).joiner = some e
  calls : sh.calls = s.calls

theorem Quiet.refl (s : State τ δ) : Quiet s s.toShared := ⟨rfl, rfl, fun _ _ h => h, rfl⟩

theorem Follows.refl {t : τ} {p : Pc τ δ} (h : p.Known main t) : Follows main t p p := ⟨h, id, fun _ => id⟩

theorem Calm.quiet (h : Calm main s) {sh : Shared τ δ} {pc : τ → Pc τ δ} (hq : Quiet s sh)
    (hf : ∀ w, Follows main w (s.pc w) (pc w)) : Calm main ⟨sh, pc⟩ where
  running := hq.running.trans h.running
  known w := (hf w).known
  joiners u e hu hj := by
    have hself := congrFun hq.self
    rw [show (State.mk sh pc).self u = sh.self u from rfl, hself u] at hj ⊢
    obtain ⟨w, hw, hjoins⟩ := h.joiners u e ((hf u).active hu) (hq.joiner _ _ hj)
    exact ⟨w, (hself w).trans hw, (hf w).joins _ hjoins⟩
  refused := by
    rw [show (State.mk sh pc).calls = s.calls from hq.calls]
    exact h.refused

/-- A wait that is over is followed by what the caller does next. -/
theorem follows_afterWait (t : τ) (d : δ) (c : Waiter τ) (p : Pc τ δ) (hp : p.phase.active = true)
    (hj : ∀ e, p.Joins e → ∃ o, c = .join o ∧ d = e) : Follows main t p (afterWait d c) := by
  refine ⟨?_, fun _ => hp, fun e he => ?_⟩
  · cases c <;> trivial
  · obtain ⟨o, rfl, hd⟩ := hj e he
    exact hd

/-- The descriptor that is released is in `used_desc`. -/
theorem Inv.release_used (h : Inv main s) {t : τ} {d : δ} {r : Releaser τ} (hpc : s.pc t = .release (some d) r)
    (hk : (s.pc t).Known main t) : d ∈ s.used := by
  have hplaced := h.placed t
  rw [hpc] at hplaced hk
  rw [h.lists.used]
  cases r with
  | exit =>
    rw [show d = s.self t from hplaced, (h.thread t).active hk (by rw [State.phase, hpc]; rfl)]
    rfl
  | unstarted =>
    rw [show s.role d = .blank t from hplaced]
    rfl
  | failed u =>
    rw [hplaced.1.1]
    rfl
  | join o =>
    obtain ⟨⟨u, -, hr, -⟩, -⟩ := hplaced
    rw [hr]
    rfl

/-- A live thread other than the initial one that a descriptor is in use for is the one that used it last. -/
theorem Inv.owner (h : Inv main s) {u w : τ} (hu : (s.phase u).active = true) (hw : s.last (s.self u) = some w) :
    w = u ∧ u ≠ main := by
  by_cases hm : u = main
  · subst u
    rw [(h.desc _).unused h.initial.role] at hw
    cases hw
  · rw [(h.desc _).lent u ((h.thread u).active hm hu)] at hw
    exact ⟨(Option.some.inj hw).symm, hm⟩

/-- A write to a descriptor that keeps its joiner, or leaves none. -/
theorem Quiet.write [DecidableEq δ] (s : State τ δ) (d : δ) (v : Desc δ) (hv : v.joiner = (s.mem d).joiner ∨ v.joiner = none)
    (role : δ → Role τ) (exiting : τ → Bool) (record : τ → Record τ) :
    Quiet s { s.toShared with mem := Function.update s.mem d v, role := role, exiting := exiting, record := record } where
  running := rfl
  self := rfl
  joiner e x hx := by
    by_cases he : e = d
    · subst e
      simp only [Function.update_self] at hx
      rcases hv with hv | hv
      · exact hv ▸ hx
      · rw [hv] at hx; cases hx
    · simpa [he] using hx
  calls := rfl

/-- A thread does not join one that is joining it and is detached. -/
theorem Calm.refuses [DecidableEq δ] (h : Calm main s) (hi : Inv main s) {t u : τ} {d : δ} {e : Int} (hpc : s.pc t = .user)
    (he : joinError s.toShared t d = some e) (hu : s.last d = some u) (hdet : (s.record u).detached = true)
    (hself : d ≠ s.self t) : e = -EINVAL ∨ e = -ESRCH := by
  unfold joinError at he
  rw [if_neg hself] at he
  split at he
  · exact .inr (Option.some.inj he).symm
  split at he
  · exact .inl (Option.some.inj he).symm
  rename_i hdetached
  split at he
  · rename_i hjoiner
    obtain ⟨w, rfl, hjoins⟩ := h.joiners t d (by rw [State.phase, hpc]; rfl) hjoiner
    have hp : s.phase w = .running := by
      unfold State.phase
      cases hw : s.pc w with
      | release desc r =>
        cases r with
        | join o => rfl
        | _ => rw [hw] at hjoins; cases desc <;> cases hjoins
      | _ => rw [hw] at hjoins; first | rfl | cases hjoins
    obtain ⟨rfl, hm⟩ := hi.owner (u := w) (by rw [hp]; rfl) hu
    have hr := (hi.thread u).active hm (by rw [hp]; rfl)
    have hnot := ((hi.desc _).status u hr).not_detached hdetached (by rw [hp]; decide)
    exact absurd (hnot.symm.trans hdet) Bool.false_ne_true
  split at he
  · exact .inl (Option.some.inj he).symm
  · cases he

variable [DecidableEq τ]

theorem Calm.goto (h : Calm main s) {sh : Shared τ δ} {t : τ} {p q : Pc τ δ} (hpc : s.pc t = p)
    (hq : Quiet s sh) (hf : Follows main t p q) : Calm main (s.move sh t q) := by
  refine h.quiet hq fun w => ?_
  by_cases hw : w = t
  · subst w
    rw [hpc, Function.update_self]
    exact hf
  · rw [Function.update_of_ne hw]
    exact .refl (h.known w)

variable [DecidableEq δ]

theorem Calm.release (h : Calm main s) (hi : Inv main s) {t : τ} {desc : Option δ} {r : Releaser τ}
    (hpc : s.pc t = .release desc r) : Calm main (release s t desc r) := by
  have hk := h.known t
  cases desc with
  | none =>
    rw [hpc] at hk
    cases hk
  | some d =>
    have hused := hi.release_used hpc hk
    have hplaced := hi.placed t
    rw [hpc] at hplaced
    simp only [Threads.release, hused, if_true]
    have hq : Quiet s ((s.toShared.count (r.thread t)).recycle d) := by
      rw [count_eq]
      exact ⟨rfl, rfl, fun _ _ => id, rfl⟩
    cases r with
    | exit => exact h.goto hpc hq ⟨trivial, fun hp => (by cases hp), fun _ => False.elim⟩
    | unstarted => exact h.goto hpc hq ⟨trivial, fun _ => rfl, fun _ => False.elim⟩
    | failed u => exact h.goto hpc hq ⟨trivial, fun _ => rfl, fun _ => False.elim⟩
    | join o =>
      obtain ⟨⟨v, -, hr, -⟩, hended⟩ := hplaced
      have hdead := hended v ((hi.desc d).lent v hr)
      refine ⟨hq.running.trans h.running, fun w => ?_, fun u e hu hj => ?_, hq.calls ▸ h.refused⟩
      · by_cases hw : w = t
        · subst w; simp [State.move, afterRelease, Pc.Known]
        · simpa [State.move, hw] using h.known w
      · have hactive : (s.phase u).active = true := by
          rw [phase_move] at hu
          by_cases hut : u = t
          · subst u; rw [State.phase, hpc]; rfl
          · simpa [hut] using hu
        have hself : ((s.toShared.count ((Releaser.join o).thread t)).recycle d).self = s.self := hq.self
        have hne : s.self u ≠ d := by
          intro he
          have := hi.owner hactive (he ▸ (hi.desc d).lent v hr)
          rw [this.1] at hdead
          rw [hdead] at hactive
          cases hactive
        obtain ⟨w, hw, hjoins⟩ := h.joiners u e hactive (hq.joiner _ _ (congrFun hself u ▸ hj))
        refine ⟨w, (congrFun hself w).trans hw, ?_⟩
        rw [show (s.move ((s.toShared.count ((Releaser.join o).thread t)).recycle d) t _).self u = s.self u from
          congrFun hself u]
        have hwt : w ≠ t := by
          rintro rfl
          rw [hpc] at hjoins
          exact hne hjoins.symm
        simpa [State.move, hwt] using hjoins

theorem Calm.cloned (h : Calm main s) (hi : Inv main s) {t u : τ} {d : δ} {attr : Attr} {k : BitVec 32}
    (hpc : s.pc t = .clone d attr) (hu : s.pc u = .unborn) :
    Calm main ⟨s.spawn t u d k, Function.update (Function.update s.pc u .born) t (.storeTid d attr u)⟩ := by
  have hblank := (hi.blank hpc).2
  have htu : t ≠ u := by
    rintro rfl
    rw [hpc] at hu; cases hu
  refine ⟨h.running, fun w => ?_, fun v e hv hj => ?_, h.refused⟩
  · by_cases hwt : w = t
    · subst w; simp [Pc.Known]
    · by_cases hwu : w = u
      · subst w; simp [hwt, Pc.Known]
      · simpa [hwt, hwu] using h.known w
  · by_cases hvu : v = u
    · subst v
      simp [Shared.spawn, hblank.joiner] at hj
    · have hactive : (s.phase v).active = true := by
        by_cases hvt : v = t
        · subst v; rw [State.phase, hpc]; rfl
        · simpa [State.phase, hvt, hvu] using hv
      simp only [Shared.spawn, Function.update_of_ne hvu] at hj ⊢
      obtain ⟨w, hw, hjoins⟩ := h.joiners v e hactive hj
      have hwt : w ≠ t := by
        rintro rfl
        rw [hpc] at hjoins; cases hjoins
      have hwu : w ≠ u := by
        rintro rfl
        rw [hu] at hjoins; cases hjoins
      exact ⟨w, by simpa [hwu] using hw, by simpa [hwt, hwu] using hjoins⟩

/-- A join is let in only for a thread that is not detached, and its caller is named as the joiner. -/
theorem Calm.joined (h : Calm main s) (hi : Inv main s) {t : τ} {d : δ} (hpc : s.pc t = .user)
    (he : joinError s.toShared t d = none) (hok : Orderly s (.join t d)) :
    Calm main (s.move ((s.called t d 0).join t d) t (.readTid d (.join (s.last d)))) := by
  obtain ⟨hself, hused, hdetached, hjoiner, -⟩ := joinError_none he
  have hjoinable := hok hself hused hdetached hjoiner
  unfold Joinable at hjoinable
  split at hjoinable
  · rename_i u hr
    have hlast := (hi.desc d).lent u hr
    have hnot := ((hi.desc d).status u hr).not_detached hdetached hjoinable.2.1
    refine ⟨?_, fun w => ?_, fun v e hv hj => ?_, fun j hj => ?_⟩
    · simp only [State.move, Shared.called, Shared.join, hlast]
      exact h.running
    · by_cases hw : w = t
      · subst w; simp [State.move, Pc.Known]
      · simpa [State.move, hw] using h.known w
    · simp only [State.move, Shared.called, Shared.join, hlast, Shared.setMem, Shared.note] at hj ⊢
      by_cases hd : s.self v = d
      · refine ⟨t, ?_, ?_⟩
        · rw [hd] at hj
          simpa using hj
        · simp [hd, Pc.Joins]
      · have hactive : (s.phase v).active = true := by
          rw [phase_move] at hv
          by_cases hvt : v = t
          · subst v; rw [State.phase, hpc]; rfl
          · simpa [hvt] using hv
        obtain ⟨w, hw, hjoins⟩ := h.joiners v e hactive (by simpa [hd] using hj)
        have hwt : w ≠ t := by
          rintro rfl
          rw [hpc] at hjoins; cases hjoins
        exact ⟨w, hw, by simpa [hwt] using hjoins⟩
    · simp only [State.move, Shared.called, Shared.join, hlast, Shared.setMem, Shared.note] at hj
      rcases List.mem_cons.mp hj with rfl | hj
      · intro hdet
        exact absurd (hnot.symm.trans hdet) Bool.false_ne_true
      · exact h.refused j hj
  · cases hjoinable

variable [Fintype τ]

theorem Calm.step (h : Calm main s) (hi : Inv main s) {s' : State τ δ} {a : Action τ δ} (ha : Careful main s a)
    (hs : Stepped s a s') : Calm main s' := by
  obtain ⟨hok, hmore⟩ := ha
  cases hs with
  | @create t attr mapped hpc =>
    exact h.goto hpc (.refl s) (by cases mapped <;> exact ⟨trivial, fun _ => rfl, nofun⟩)
  | @mprotect t attr granted hpc =>
    rw [show granted = true from hmore]
    exact h.goto hpc (.refl s) ⟨trivial, fun _ => rfl, nofun⟩
  | tookNone hpc _ => exact h.goto hpc (.refl s) ⟨trivial, fun _ => rfl, nofun⟩
  | took hpc _ => exact h.goto hpc ⟨rfl, rfl, fun _ _ => id, rfl⟩ ⟨trivial, fun _ => rfl, nofun⟩
  | allocate hpc _ => exact h.goto hpc ⟨rfl, rfl, fun _ _ => id, rfl⟩ ⟨trivial, fun _ => rfl, nofun⟩
  | addUsed hpc => exact h.goto hpc ⟨rfl, rfl, fun _ _ => id, rfl⟩ ⟨trivial, fun _ => rfl, nofun⟩
  | clear hpc => exact h.goto hpc (.write s _ _ (by exact .inr rfl) ..) ⟨trivial, fun _ => rfl, nofun⟩
  | fill hpc => exact h.goto hpc (.write s _ _ (by exact .inl rfl) ..) ⟨trivial, fun _ => rfl, nofun⟩
  | cloned hpc hu _ => exact h.cloned hi hpc hu
  | cloneFailed hpc => exact h.goto hpc (.refl s) ⟨trivial, fun _ => rfl, nofun⟩
  | @storeTid t d attr u hpc =>
    refine h.goto hpc (.write s _ _ (by exact .inl rfl) ..) ?_
    cases attr.schedInherit <;> exact ⟨trivial, fun _ => rfl, nofun⟩
  | setSched hpc => exact h.goto hpc (.refl s) ⟨trivial, fun _ => rfl, nofun⟩
  | storeStart hpc => exact h.goto hpc (.write s _ _ (by exact .inl rfl) ..) ⟨trivial, fun _ => rfl, nofun⟩
  | @wakeStart t d u ok woken pc hpc hw =>
    refine h.quiet ⟨rfl, rfl, fun _ _ => id, rfl⟩ fun w => ?_
    by_cases hwt : w = t
    · subst w
      rw [hpc, Function.update_self]
      cases ok <;> exact ⟨trivial, fun _ => rfl, nofun⟩
    · rw [Function.update_of_ne hwt]
      rcases wakeOne_woken hw w with hp | ⟨hp, hgo⟩
      · rw [hp]; exact .refl (h.known w)
      · rw [hgo]
        cases hpw : s.pc w <;> rw [hpw] at hp <;> first | cases hp | exact ⟨trivial, fun _ => rfl, nofun⟩
  | @readTid t d w hpc =>
    refine h.goto hpc (.refl s) ?_
    split
    · exact follows_afterWait t d w _ rfl fun e he => by cases w <;> first | exact ⟨_, rfl, he⟩ | cases he
    · exact ⟨trivial, fun _ => rfl, fun e he => by cases w <;> exact he⟩
  | @waitTid t d k w hpc =>
    refine h.goto hpc (.refl s) ?_
    split
    · exact ⟨trivial, fun _ => rfl, fun e he => by cases w <;> exact he⟩
    · exact follows_afterWait t d w _ rfl fun e he => by cases w <;> first | exact ⟨_, rfl, he⟩ | cases he
  | @interrupted t d k w hpc =>
    exact h.goto hpc (.refl s) ⟨trivial, fun _ => rfl, fun e he => by cases w <;> exact he⟩
  | readRetval hpc => exact h.goto hpc ⟨rfl, rfl, fun _ _ => id, rfl⟩ ⟨trivial, fun _ => rfl, fun _ => id⟩
  | release hpc => exact h.release hi hpc
  | started hpc => exact h.goto hpc (.write s _ _ (by exact .inl rfl) ..) ⟨trivial, fun _ => rfl, nofun⟩
  | checkStart hpc =>
    refine h.goto hpc (.refl s) ?_
    split <;> exact ⟨trivial, fun _ => rfl, nofun⟩
  | startWait hpc =>
    refine h.goto hpc (.refl s) ?_
    split <;> exact ⟨trivial, fun _ => rfl, nofun⟩
  | startInterrupted hpc => exact h.goto hpc (.refl s) ⟨trivial, fun _ => rfl, nofun⟩
  | recheckStart hpc =>
    refine h.goto hpc (.refl s) ?_
    split <;> exact ⟨trivial, fun _ => rfl, nofun⟩
  | exit hpc => exact h.goto hpc (.write s _ _ (by exact .inl rfl) ..) ⟨trivial, fun _ => rfl, nofun⟩
  | exitSection hpc _ =>
    refine h.goto hpc (.write s _ _ (by exact .inl rfl) ..) ?_
    split
    · exact ⟨hmore, fun _ => rfl, nofun⟩
    · exact ⟨trivial, nofun, nofun⟩
  | @terminate u hpc =>
    refine h.quiet (.write s _ _ (by exact .inl rfl) ..) fun w => ?_
    by_cases hwu : w = u
    · subst w
      rw [hpc, Function.update_self]
      exact ⟨trivial, nofun, nofun⟩
    · rw [Function.update_of_ne hwu]
      rcases pc_woken s.pc (s.self u) w with ⟨hp, -⟩ | ⟨k, c, hp, hgo⟩
      · rw [hp]; exact .refl (h.known w)
      · rw [hp, hgo]
        exact follows_afterWait w _ c _ rfl fun e he => by cases c <;> first | exact ⟨_, rfl, he⟩ | cases he
  | notDetached => exact h
  | @detached t d hpc _ =>
    refine h.goto hpc ?_ ⟨trivial, fun _ => rfl, nofun⟩
    unfold Shared.detach
    split <;> exact .write s _ _ (by exact .inl rfl) ..
  | @notJoined t d e hpc he =>
    cases hlast : s.last d with
    | none =>
      rw [Shared.called, hlast]
      exact h.goto hpc (.refl s) ⟨trivial, fun _ => rfl, nofun⟩
    | some u =>
      have hq := h.goto hpc (.refl s) (q := .user) ⟨trivial, fun _ => rfl, nofun⟩
      rw [Shared.called, hlast]
      refine { hq with refused := fun j hj => ?_ }
      rcases List.mem_cons.mp hj with rfl | hj
      · intro hdet
        refine h.refuses hi hpc he hlast hdet fun hself => ?_
        exact absurd ((hmore hself u hlast).symm.trans hdet) Bool.false_ne_true
      · exact h.refused j hj
  | joined hpc he => exact h.joined hi hpc he hok

theorem reaches_calm (h : Reaches (Initial main) step (Careful main) s) : Inv main s ∧ Calm main s := by
  refine ⟨reaches_inv (fun _ _ ha => ha.1) h, ?_⟩
  exact h.invariant (I := Calm main) (fun _ h₀ => h₀.calm) fun _ _ _ hr hc ha hs =>
    hc.step (reaches_inv (fun _ _ ha => ha.1) hr) ha (step_stepped hs).2

/-- In a run of careful steps every descriptor is released by one party at most. -/
theorem released_once (h : Reaches (Initial main) step (Careful main) s) : ReleasedOnce main s := by
  obtain ⟨hi, hc⟩ := reaches_calm h
  refine ⟨fun u hu => ((hi.thread u).releases hu).1, hc.running, ?_, hc.refused⟩
  refine List.nodup_append.mpr ⟨hi.lists.usedNodup, hi.lists.freeNodup, fun d hd e he => ?_⟩
  rintro rfl
  rw [hi.lists.used, (hi.lists.free d).mp he] at hd
  cases hd

/-- A thread exits and is joined, and its descriptor is free. -/
theorem released_once_joined : ∃ s : State (Fin 2) (Fin 2), (s.record 1).releases = 1 ∧ s.free = [1] ∧
    ReleasedOnce 0 s := by
  have hr := Reaches.run_get (boot_initial (0 : Fin 2) (0 : Fin 2) 1)
    (show (run step (Careful 0) (spawning 0 1 1 7 true ++ [.next 0] ++ exiting 1 5 ++
      [.join 0 1, .next 0, .terminate 1, .next 0, .next 0, .next 0]) (boot 0 0 1)).isSome from by decide)
  exact ⟨_, by decide, by decide, released_once hr⟩

/-- A detached thread is joined after it set `TB_JOINABLE_FIXED` and before it releases its descriptor. -/
theorem released_once_window : ∃ s : State (Fin 2) (Fin 2), Reaches (Initial 0) step anyStep s ∧
    s.calls = [⟨0, 1, true, 0⟩] ∧ (s.record 1).releases = 2 ∧ s.crashed = true ∧ ¬ ReleasedOnce 0 s := by
  have hr := Reaches.run_get (boot_initial (0 : Fin 2) (0 : Fin 2) 1)
    (show (run step anyStep (spawning 0 1 1 7 false ++ [.next 0] ++ exiting 1 5 ++
      [.join 0 1, .next 0, .next 1, .terminate 1, .next 0, .next 0, .next 0]) (boot 0 0 1)).isSome from by decide)
  exact ⟨_, hr, by decide, by decide, by decide, fun h => absurd (h.once 1 (by decide)) (by decide)⟩

end ThreadBites.Threads
