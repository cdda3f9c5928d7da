import ThreadBites.CeilingChanges

/-!
# The protect list under ceilings that change

A thread that is in no call has exactly the mutexes that it holds on its list, in
the order of their ceilings, and a priority that is not below any of them, as long
as no owner sets a ceiling past a neighbour of the mutex on the list or past the
priority that it runs with.
-/
namespace ThreadBites.Ceilings

open Transition
open Sched (SchedInfo listAddHere mutexPrioSmaller protectMutexSched protectMutexUnsched)
open MutexCalls (World unlockPrioNone)

variable {τ μ : Type}

section Priority

variable {info : μ → SchedInfo} {th : Sched.Thread μ} {l : List μ} {m : μ}

/-- `tb_compute_sched` does not go below the ceiling of the first protect mutex. -/
theorem head_le_effective (h : th.protectMutexes.head? = some m) :
    (info m).priority ≤ (th.effective info).priority := by
  obtain ⟨rest, hl⟩ : ∃ rest, th.protectMutexes = m :: rest := by
    cases hl : th.protectMutexes with
    | nil => simp [hl] at h
    | cons k rest =>
      rw [hl, List.head?_cons, Option.some.injEq] at h
      exact ⟨rest, by rw [h]⟩
  have hraise : (info m).priority ≤ (Sched.raise th.userSchedInfo (info m)).priority :=
    Sched.priority_le_of_rank (by rw [Sched.raise_rank]; exact Nat.le_max_right _ _)
  have hfold := Sched.foldl_raise_strongest (Sched.raise th.userSchedInfo (info m)) (th.inheritMutexes.map (·.2))
  have heff : th.effective info =
      (th.inheritMutexes.map (·.2)).foldl Sched.raise (Sched.raise th.userSchedInfo (info m)) := by
    simp only [Sched.Thread.effective, hl]
  rw [heff]
  exact hraise.trans (hfold.priority_le List.mem_cons_self)

/-- What bounds the first one of a sorted list bounds all of it. -/
theorem bound_of_head {n : Nat} (hs : l.Pairwise fun a b => (info b).priority ≤ (info a).priority)
    (hh : ∀ k, l.head? = some k → (info k).priority ≤ n) : ∀ k ∈ l, (info k).priority ≤ n := by
  cases l with
  | nil => exact fun k hk => by cases hk
  | cons a rest =>
    intro k hk
    have ha := hh a rfl
    rcases List.mem_cons.mp hk with rfl | hk
    · exact ha
    · exact ((List.pairwise_cons.mp hs).1 k hk).trans ha

variable [DecidableEq μ]

theorem protectMutexSched_bound (hs : th.protectMutexes.Pairwise fun a b => (info b).priority ≤ (info a).priority)
    (hb : ∀ k ∈ th.protectMutexes, (info k).priority ≤ th.schedInfo.priority) :
    ∀ k ∈ listAddHere (mutexPrioSmaller info) m th.protectMutexes,
      (info k).priority ≤ (protectMutexSched info m th 0).schedInfo.priority := by
  have hsorted := Sched.listAddHere_sorted (x := m) hs
  apply bound_of_head hsorted
  intro k hk
  unfold protectMutexSched
  simp only
  split
  · exact head_le_effective hk
  · rename_i hhead
    have hsame := (Sched.listAddHere_head (mutexPrioSmaller info) m th.protectMutexes).resolve_left hhead
    rw [hsame] at hk
    exact hb k (List.mem_of_head? hk)

theorem protectMutexUnsched_bound
    (hs : (th.protectMutexes.erase m).Pairwise fun a b => (info b).priority ≤ (info a).priority)
    (hb : ∀ k ∈ th.protectMutexes.erase m, (info k).priority ≤ th.schedInfo.priority) :
    ∀ k ∈ th.protectMutexes.erase m,
      (info k).priority ≤ (protectMutexUnsched info m th 0).schedInfo.priority := by
  apply bound_of_head hs
  intro k hk
  unfold protectMutexUnsched
  simp only
  split
  · split
    · exact head_le_effective hk
    · exact hb k (List.mem_of_head? hk)
  · exact hb k (List.mem_of_head? hk)

end Priority

/-- Held and not on the list: not yet, or no longer. -/
def Pc.pending : Pc μ → Option μ
  | .protectSched m _ => some m
  | .futexUnlock m => some m
  | _ => none

/-- On the list, where its place does not matter any more. -/
def Pc.unlisting : Pc μ → Option μ
  | .protectUnsched m => some m
  | _ => none

/-- The mutex that a thread is sure to hold. -/
def Pc.uses : Pc μ → Option μ
  | .protectSched m _ => some m
  | .setCeiling m _ _ => some m
  | .protectUnsched m => some m
  | .futexUnlock m => some m
  | _ => none

/-- The list of a thread, and its priority. -/
structure ThreadOk (w : World τ μ) (t : τ) (c : Pc μ) : Prop where
  nodup : (w.thread t).protectMutexes.Nodup
  mem : ∀ m, m ∈ (w.thread t).protectMutexes ↔ (w.mutex m).owner = some t ∧ c.pending ≠ some m
  sorted : (w.thread t).protectMutexes.Pairwise fun a b =>
    c.unlisting = some a ∨ c.unlisting = some b ∨ (w.info b).priority ≤ (w.info a).priority
  bound : ∀ m ∈ (w.thread t).protectMutexes,
    c.unlisting = some m ∨ (w.info m).priority ≤ (w.thread t).schedInfo.priority
  uses : ∀ m, c.uses = some m → (w.mutex m).owner = some t

structure Inv (s : State τ μ) : Prop where
  word : ∀ m, (s.world.mutex m).futex = 0 ∧ (s.world.mutex m).owner = none ∨
    (s.world.mutex m).futex = 1 ∧ (s.world.mutex m).owner ≠ none
  kind : ∀ m, (s.world.mutex m).kind ≠ .recursive
  thread : ∀ t, ThreadOk s.world t (s.pc t)

theorem Initial.inv {s : State τ μ} (h : Initial s) : Inv s where
  word := fun m => .inl (h.free m)
  kind := h.kind
  thread := fun t => by
    constructor
    · simp [h.list]
    · intro m
      simp [h.list, h.free m]
    · simp [h.list]
    · simp [h.list]
    · intro m hm
      rw [h.out t] at hm
      cases hm

section Frame

variable {w w' : World τ μ} {t : τ} {c c' : Pc μ}

/-- Another thread's step. -/
theorem ThreadOk.frame (h : ThreadOk w t c) (hth : w'.thread t = w.thread t)
    (howner : ∀ m, (w'.mutex m).owner = some t ↔ (w.mutex m).owner = some t)
    (hinfo : ∀ m, (w.mutex m).owner = some t → w'.info m = w.info m) : ThreadOk w' t c where
  nodup := hth ▸ h.nodup
  mem := fun m => by rw [hth, howner]; exact h.mem m
  sorted := by
    rw [hth]
    refine h.sorted.imp_of_mem fun {a b} ha hb hab => ?_
    rwa [hinfo a ((h.mem a).mp ha).1, hinfo b ((h.mem b).mp hb).1]
  bound := fun m hm => by
    rw [hth] at hm ⊢
    rw [hinfo m ((h.mem m).mp hm).1]
    exact h.bound m hm
  uses := fun m hm => (howner m).mpr (h.uses m hm)

/-- A step of the thread that changes nothing but its place. -/
theorem ThreadOk.go (h : ThreadOk w t c) (hpending : c'.pending = c.pending) (hu : c.unlisting = none)
    (huses : ∀ m, c'.uses = some m → (w.mutex m).owner = some t) : ThreadOk w t c' where
  nodup := h.nodup
  mem := fun m => by rw [hpending]; exact h.mem m
  sorted := h.sorted.imp fun hab => .inr (.inr (by simpa [hu] using hab))
  bound := fun m hm => .inr (by simpa [hu] using h.bound m hm)
  uses := huses

end Frame

/-- The conditions on a step: a normal mutex is unlocked by its holder, and an owner sets a ceiling that
keeps its list in order and is not above its priority. -/
def Fits [DecidableEq μ] (s : State τ μ) : Action τ μ → Prop
  | .call t (.unlock m) => (s.world.mutex m).kind = .normal → (s.world.mutex m).owner = some t
  | .next t => match s.pc t with
    | .setCeiling m ceiling false =>
      ((s.world.thread t).protectMutexes.Pairwise fun a b =>
        ((setCeiling s.world m ceiling).info b).priority ≤ ((setCeiling s.world m ceiling).info a).priority) ∧
      ceiling ≤ (s.world.thread t).schedInfo.priority
    | _ => True
  | _ => True

variable [DecidableEq τ] [DecidableEq μ]

instance (s : State τ μ) (a : Action τ μ) : Decidable (Fits s a) := by
  unfold Fits
  split
  · infer_instance
  · split <;> infer_instance
  · infer_instance

omit [DecidableEq μ] in
/-- One thread moves: its own part, and that of the others by their frame. -/
theorem Inv.move {s : State τ μ} (h : Inv s) {t : τ} {w : World τ μ} {c : Pc μ}
    (hword : ∀ m, (w.mutex m).futex = 0 ∧ (w.mutex m).owner = none ∨
      (w.mutex m).futex = 1 ∧ (w.mutex m).owner ≠ none)
    (hkind : ∀ m, (w.mutex m).kind = (s.world.mutex m).kind) (ht : ThreadOk w t c)
    (hother : ∀ u, u ≠ t → ThreadOk w u (s.pc u)) : Inv ({ s with world := w }.goto t c) where
  word := hword
  kind := fun m => by
    show (w.mutex m).kind ≠ .recursive
    rw [hkind]
    exact h.kind m
  thread := fun u => by
    by_cases hu : u = t
    · subst u
      simpa [State.goto] using ht
    · simpa [State.goto, hu] using hother u hu

omit [DecidableEq μ] in
/-- A step that changes the place of one thread only. -/
theorem Inv.place {s : State τ μ} (h : Inv s) {t : τ} {c : Pc μ} (hpending : c.pending = (s.pc t).pending)
    (hu : (s.pc t).unlisting = none) (huses : ∀ m, c.uses = some m → (s.world.mutex m).owner = some t) :
    Inv (s.goto t c) :=
  h.move h.word (fun _ => rfl) ((h.thread t).go hpending hu huses) fun u _ => h.thread u

/-- Where a call begins, the thread holds what it is about to use. -/
theorem entry_uses {s : State τ μ} (h : Inv s) {t : τ} {f : Call μ} (ha : Fits s (.call t f)) {m : μ}
    (hm : (entry s.world t f).uses = some m) : (s.world.mutex m).owner = some t := by
  cases f with
  | lock k =>
    simp only [entry] at hm
    split at hm <;> cases hm
  | trylock k => cases hm
  | unlock k =>
    simp only [entry] at hm
    split at hm
    · cases hm
    · rename_i hne
      cases hm
      cases hk : (s.world.mutex m).kind with
      | normal => exact ha hk
      | errorcheck =>
        rw [not_and_or, not_or, not_not] at hne
        exact (hne.resolve_left (not_not.mpr hk)).1
      | recursive => exact absurd hk (h.kind m)
  | setprioceiling k ceiling =>
    simp only [entry] at hm
    split at hm
    · cases hm
    · split at hm
      · cases hm
      · split at hm
        · cases hm
        · rename_i howner
          cases hm
          exact not_not.mp howner

omit [DecidableEq μ] in
theorem entry_pending (w : World τ μ) (t : τ) (f : Call μ) : (entry w t f).pending = none := by
  cases f <;> simp only [entry] <;> repeat' split
  all_goals rfl

/-- Taking a free mutex. -/
theorem Inv.took {s : State τ μ} (h : Inv s) {t : τ} {m : μ} {ceiling : Option Nat}
    (hpending : (s.pc t).pending = none) (hun : (s.pc t).unlisting = none) (hfree : (s.world.mutex m).futex = 0) :
    Inv ({ s with world := take s.world m t }.goto t (.protectSched m ceiling)) := by
  have hnone : (s.world.mutex m).owner = none := by
    rcases h.word m with ⟨-, hn⟩ | ⟨h1, -⟩
    · exact hn
    · omega
  obtain ⟨hnodup, hmem, hsorted, hbound, -⟩ := h.thread t
  rw [hpending] at hmem
  rw [hun] at hsorted hbound
  refine h.move (fun k => ?_) (fun k => ?_) ?_ (fun u hu => ?_)
  · by_cases hk : k = m
    · subst k
      exact .inr (by simp)
    · rw [take_mutex_other _ _ hk]
      exact h.word k
  · by_cases hk : k = m
    · subst k
      simp
    · rw [take_mutex_other _ _ hk]
  · constructor
    · exact hnodup
    · intro k
      by_cases hk : k = m
      · subst k
        simp [hmem, hnone, Pc.pending]
      · simp [hmem, take_mutex_other _ _ hk, Pc.pending, Ne.symm hk]
    · exact hsorted
    · exact hbound
    · intro k hk
      cases hk
      simp
  · refine (h.thread u).frame rfl (fun k => ?_) fun _ _ => rfl
    by_cases hk : k = m
    · subst k
      simp [hnone, Ne.symm hu]
    · rw [take_mutex_other _ _ hk]

omit [DecidableEq μ] in
/-- The record of the owner changes. -/
theorem onOwner_thread {s : State τ μ} (h : Inv s) {t : τ} {m : μ} (hm : (s.pc t).uses = some m)
    {f : Sched.Thread μ → Sched.Thread μ} {w : World τ μ} (hw : s.world.onOwner m f = some w) :
    w = { s.world with thread := Function.update s.world.thread t (f (s.world.thread t)) } := by
  rw [MutexCalls.onOwner_of_owner ((h.thread t).uses m hm), Option.some.injEq] at hw
  exact hw.symm

theorem Inv.listed {s : State τ μ} (h : Inv s) {t : τ} {m : μ} {ceiling : Option Nat}
    (hpc : s.pc t = .protectSched m ceiling) {w : World τ μ} (hw : MutexCalls.protectSched s.world m 0 = some w) :
    Inv ({ s with world := w }.goto t (afterSched m ceiling)) := by
  have ht := h.thread t
  have hown := ht.uses m (by rw [hpc]; rfl)
  rw [onOwner_thread h (by rw [hpc]; rfl) hw]
  rw [hpc] at ht
  have hnot : m ∉ (s.world.thread t).protectMutexes := fun hm => ((ht.mem m).mp hm).2 rfl
  have hsorted : (s.world.thread t).protectMutexes.Pairwise fun a b =>
      (s.world.info b).priority ≤ (s.world.info a).priority := ht.sorted.imp fun hab => by simpa [Pc.unlisting] using hab
  have hbound := protectMutexSched_bound (m := m) hsorted fun k hk => by simpa [Pc.unlisting] using ht.bound k hk
  have hpending : (afterSched m ceiling).pending = none := by cases ceiling <;> rfl
  refine h.move h.word (fun _ => rfl) ?_ (fun u hu => (h.thread u).frame (by simp [hu]) (fun _ => Iff.rfl) fun _ _ => rfl)
  constructor
  · simpa using Sched.listAddHere_nodup ht.nodup hnot
  · intro k
    simp only [Function.update_self, Sched.protectMutexSched_protectMutexes, Sched.mem_listAddHere, ht.mem k, hpending]
    by_cases hk : k = m
    · subst k
      simp [hown]
    · simp [hk, Pc.pending, Ne.symm hk]
  · simp only [Function.update_self, Sched.protectMutexSched_protectMutexes]
    exact (Sched.listAddHere_sorted hsorted).imp fun hab => .inr (.inr hab)
  · intro k hk
    simp only [Function.update_self, Sched.protectMutexSched_protectMutexes] at hk ⊢
    exact .inr (hbound k hk)
  · intro k hk
    cases ceiling with
    | none => cases hk
    | some n =>
      cases hk
      exact hown

/-- After the write an owner's call is over if its list is still in order; a call that locked the mutex
takes it off the list next. -/
theorem Inv.wrote {s : State τ μ} (h : Inv s) {t : τ} {m : μ} {ceiling : Nat} {locked : Bool}
    (hpc : s.pc t = .setCeiling m ceiling locked) (ha : Fits s (.next t)) :
    Inv ({ s with world := setCeiling s.world m ceiling }.goto t (if locked then .protectUnsched m else .out 0)) := by
  obtain ⟨hnodup, hmem, hsorted, hbound, huses⟩ := h.thread t
  rw [hpc] at hmem hsorted hbound huses
  have hown := huses m rfl
  have hother : ∀ k, k ≠ m → (setCeiling s.world m ceiling).info k = s.world.info k := fun k hk => by
    simp [setCeiling, hk]
  refine h.move h.word (fun _ => rfl) ?_ (fun u hu => (h.thread u).frame rfl (fun _ => Iff.rfl) fun k hk => ?_)
  · cases locked with
    | true =>
      constructor
      · exact hnodup
      · exact hmem
      · refine hsorted.imp fun {a b} hab => ?_
        by_cases hma : m = a
        · exact .inl (congrArg some hma)
        · by_cases hmb : m = b
          · exact .inr (.inl (congrArg some hmb))
          · rw [hother a (Ne.symm hma), hother b (Ne.symm hmb)]
            exact .inr (.inr (by simpa [Pc.unlisting] using hab))
      · intro k hk
        by_cases hmk : m = k
        · exact .inl (congrArg some hmk)
        · rw [hother k (Ne.symm hmk)]
          exact .inr (by simpa [Pc.unlisting] using hbound k hk)
      · intro k hk
        cases hk
        exact hown
    | false =>
      simp only [Fits, hpc] at ha
      constructor
      · exact hnodup
      · exact hmem
      · exact ha.1.imp fun hab => .inr (.inr hab)
      · intro k hk
        refine .inr ?_
        by_cases hkm : k = m
        · subst k
          simpa [setCeiling] using ha.2
        · rw [hother k hkm]
          simpa [Pc.unlisting] using hbound k hk
      · intro k hk
        cases hk
  · apply hother
    rintro rfl
    rw [hown] at hk
    exact hu (Option.some.inj hk).symm

theorem Inv.unlisted {s : State τ μ} (h : Inv s) {t : τ} {m : μ} (hpc : s.pc t = .protectUnsched m) {w : World τ μ}
    (hw : MutexCalls.protectUnsched s.world m 0 = some w) : Inv ({ s with world := w }.goto t (.futexUnlock m)) := by
  obtain ⟨hnodup, hmem, hsorted, hbound, huses⟩ := h.thread t
  rw [onOwner_thread h (by rw [hpc]; rfl) hw]
  rw [hpc] at hmem hsorted hbound huses
  have herase : ∀ k ∈ (s.world.thread t).protectMutexes.erase m, k ≠ m ∧ k ∈ (s.world.thread t).protectMutexes :=
    fun k hk => hnodup.mem_erase_iff.mp hk
  have hs : ((s.world.thread t).protectMutexes.erase m).Pairwise fun a b =>
      (s.world.info b).priority ≤ (s.world.info a).priority := by
    refine (hsorted.sublist List.erase_sublist).imp_of_mem fun {a b} hma hmb hab => ?_
    rcases hab with he | he | hab
    · exact absurd (Option.some.inj he).symm (herase a hma).1
    · exact absurd (Option.some.inj he).symm (herase b hmb).1
    · exact hab
  have hb := protectMutexUnsched_bound hs fun k hk => by
    rcases hbound k (herase k hk).2 with he | hle
    · exact absurd (Option.some.inj he).symm (herase k hk).1
    · exact hle
  refine h.move h.word (fun _ => rfl) ?_ (fun u hu => (h.thread u).frame (by simp [hu]) (fun _ => Iff.rfl) fun _ _ => rfl)
  constructor
  · simpa using hnodup.erase m
  · intro k
    simp only [Function.update_self, Sched.protectMutexUnsched_protectMutexes, hnodup.mem_erase_iff, hmem k]
    simp [Pc.pending, and_comm, eq_comm]
  · simp only [Function.update_self, Sched.protectMutexUnsched_protectMutexes]
    exact hs.imp fun hab => .inr (.inr hab)
  · intro k hk
    simp only [Function.update_self, Sched.protectMutexUnsched_protectMutexes] at hk ⊢
    exact .inr (hb k hk)
  · intro k hk
    cases hk
    exact huses m rfl

/-- Giving the word back. -/
theorem Inv.gave {s : State τ μ} (h : Inv s) {t : τ} {m : μ} (hpc : s.pc t = .futexUnlock m) :
    Inv ({ s with world := unlockPrioNone s.world m }.goto t (.out 0)) := by
  obtain ⟨hnodup, hmem, hsorted, hbound, huses⟩ := h.thread t
  rw [hpc] at hmem hsorted hbound huses
  have hown := huses m rfl
  have hone : (s.world.mutex m).futex = 1 := by
    rcases h.word m with ⟨-, hn⟩ | ⟨h1, -⟩
    · rw [hown] at hn
      cases hn
    · exact h1
  have hat : (unlockPrioNone s.world m).mutex m = { s.world.mutex m with owner := none, futex := 0 } := by
    simp [unlockPrioNone, hone, FutexLock.compareAndSwap]
  have hsame : ∀ k, k ≠ m → (unlockPrioNone s.world m).mutex k = s.world.mutex k := fun k hk =>
    MutexCalls.put_mutex_other _ _ hk
  refine h.move (fun k => ?_) (fun k => ?_) ?_ (fun u hu => (h.thread u).frame rfl (fun k => ?_) fun _ _ => rfl)
  · by_cases hk : k = m
    · subst k
      exact .inl (by simp [hat])
    · rw [hsame k hk]
      exact h.word k
  · by_cases hk : k = m
    · subst k
      simp [hat]
    · rw [hsame k hk]
  · constructor
    · exact hnodup
    · intro k
      by_cases hk : k = m
      · subst k
        simp [unlockPrioNone, hmem, Pc.pending]
      · rw [hsame k hk, MutexCalls.unlockPrioNone_thread]
        simpa [Pc.pending, Ne.symm hk] using hmem k
    · exact hsorted
    · exact hbound
    · intro k hk
      cases hk
  · by_cases hk : k = m
    · subst k
      simp [hat, hown, Ne.symm hu]
    · rw [hsame k hk]

theorem Inv.step {s s' : State τ μ} {a : Action τ μ} (h : Inv s) (ha : Fits s a) (hs : Stepped s a s') : Inv s' := by
  cases hs with
  | @call t f ret hpc =>
    apply h.place
    · rw [hpc, entry_pending]
      rfl
    · rw [hpc]
      rfl
    · exact fun m hm => entry_uses h ha hm
  | @took t m ceiling hpc hfree =>
    obtain hpc | ⟨hpc, -⟩ := hpc
    · exact h.took (by rw [hpc]; rfl) (by rw [hpc]; rfl) hfree
    · exact h.took (by rw [hpc]; rfl) (by rw [hpc]; rfl) hfree
  | @busy t m hpc =>
    apply h.place
    · rw [hpc]
      rfl
    · rw [hpc]
      rfl
    · exact fun m hm => by cases hm
  | listed hpc hw => exact h.listed hpc hw
  | wrote hpc => exact h.wrote hpc ha
  | unlisted hpc hw => exact h.unlisted hpc hw
  | gave hpc => exact h.gave hpc

theorem reaches_inv {s : State τ μ} (h : Reaches Initial step Fits s) : Inv s :=
  h.invariant (fun _ h₀ => h₀.inv) fun _ _ _ _ hi ha hs => hi.step ha (step_stepped hs)

omit [DecidableEq τ] [DecidableEq μ] in
/-- The list of a thread is what it holds, in order, and its priority is not below any ceiling. -/
structure Protected (w : World τ μ) (t : τ) : Prop where
  once : (w.thread t).protectMutexes.Nodup
  held : ∀ m, m ∈ (w.thread t).protectMutexes ↔ (w.mutex m).owner = some t
  sorted : (w.thread t).protectMutexes.Pairwise fun a b => (w.info b).priority ≤ (w.info a).priority
  head : ∀ m k, (w.thread t).protectMutexes.head? = some m → (w.mutex k).owner = some t →
    (w.info k).priority ≤ (w.info m).priority
  priority : ∀ m, (w.mutex m).owner = some t → (w.info m).priority ≤ (w.thread t).schedInfo.priority

/-- In every run in which owners set only ceilings that keep their list in order and are not above their
priority, and normal mutexes are unlocked by their holders, the list of a thread that is in no call
is right. -/
theorem protect_list_kept {s : State τ μ} (h : Reaches Initial step Fits s) {t : τ} {ret : Int}
    (hpc : s.pc t = .out ret) : Protected s.world t := by
  obtain ⟨hnodup, hmem, hsorted, hbound, -⟩ := (reaches_inv h).thread t
  rw [hpc] at hmem hsorted hbound
  have hheld : ∀ m, m ∈ (s.world.thread t).protectMutexes ↔ (s.world.mutex m).owner = some t := by
    intro m
    simpa [Pc.pending] using hmem m
  have hs : (s.world.thread t).protectMutexes.Pairwise fun a b =>
      (s.world.info b).priority ≤ (s.world.info a).priority := by
    simpa [Pc.unlisting] using hsorted
  constructor
  · exact hnodup
  · exact hheld
  · exact hs
  · intro m k hm hk
    refine bound_of_head hs (fun j hj => ?_) k ((hheld k).mpr hk)
    rw [hm, Option.some.injEq] at hj
    rw [hj]
  · intro m hm
    simpa [Pc.unlisting] using hbound m ((hheld m).mpr hm)

/-- Normal mutexes with ceiling 10, and threads with `SCHED_FIFO`, priority 5. -/
def fresh : State τ μ where
  world := {
    mutex := fun _ => ⟨0, .normal, .prioProtect, none, 0⟩
    info := fun _ => ⟨.fifo, 10⟩
    thread := fun _ => ⟨⟨.fifo, 5⟩, ⟨.fifo, 5⟩, [], []⟩ }
  pc := fun _ => .out 0

omit [DecidableEq τ] [DecidableEq μ] in
theorem fresh_initial : Initial (fresh : State τ μ) := by
  constructor <;> simp [fresh]

/-- A thread sets the ceiling of `k`, locks `m` and `k`, and sets the ceiling of `k` once more. -/
def changed (t : τ) (m k : μ) (first second : Int) : List (Action τ μ) :=
  [Action.call t (.setprioceiling k first), Action.next t, Action.next t, Action.next t, Action.next t, Action.next t,
    Action.call t (.lock m), Action.next t, Action.next t, Action.call t (.lock k), Action.next t, Action.next t,
    Action.call t (.setprioceiling k second), Action.next t]

/-- From 20 down to 15, where both mutexes have their places. -/
theorem protect_list_kept_lowered : ∃ s : State Unit Bool, (s.world.thread ()).protectMutexes = [true, false] ∧
    s.world.info true = ⟨.fifo, 15⟩ ∧ Protected s.world () := by
  obtain ⟨s, hr, hl, hi, hpc⟩ : ∃ s : State Unit Bool, Reaches Initial step Fits s ∧
      (s.world.thread ()).protectMutexes = [true, false] ∧ s.world.info true = ⟨.fifo, 15⟩ ∧ s.pc () = .out 0 := by
    have hr := Reaches.run_get fresh_initial
      (show (run step Fits (changed () false true 20 15) fresh).isSome from by decide)
    exact ⟨_, hr, by decide, by decide, by decide⟩
  exact ⟨s, hl, hi, protect_list_kept hr hpc⟩

/-- The holder of a mutex raises its ceiling from 10 to 50 and goes on with priority 10. -/
theorem protect_list_outrun : ∃ s : State Unit Bool, Reaches Initial step anyStep s ∧ s.pc () = .out 0 ∧
    (s.world.mutex true).owner = some () ∧ s.world.info true = ⟨.fifo, 50⟩ ∧
    (s.world.thread ()).schedInfo = ⟨.fifo, 10⟩ ∧ (s.world.thread ()).protectMutexes = [false, true] ∧
    ¬ Protected s.world () := by
  have hr := Reaches.run_get fresh_initial
    (show (run step anyStep (changed () false true 10 50) fresh).isSome from by decide)
  refine ⟨_, hr, by decide, by decide, by decide, by decide, by decide, fun h => ?_⟩
  exact absurd (h.priority true (by decide)) (by decide)

end ThreadBites.Ceilings
