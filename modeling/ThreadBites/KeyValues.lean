import ThreadBites.Keys

/-!
# Thread-specific data is a map for each lifetime of a key

The sequence number of a slot counts the creations and deletions of its key, so
a value whose number is the number of the slot was set since the key was last
created, and a new thread has no number that a slot in use can have.
-/
namespace ThreadBites.Keys

open Transition

variable {τ δ ν φ : Type}

/-- What calls have done, for the specification. -/
inductive Event (τ ν : Type) where
  | started (t : τ)
  | created (key : Nat)
  | deleted (key : Nat)
  | set (t : τ) (key : Nat) (value : Option ν)
  deriving DecidableEq, Repr

/-- A key is live after events, newest first, if it was created and not deleted since. -/
def live (key : Nat) : List (Event τ ν) → Bool
  | [] => false
  | .created k :: rest => if k = key then true else live key rest
  | .deleted k :: rest => if k = key then false else live key rest
  | _ :: rest => live key rest

def creations (key : Nat) : List (Event τ ν) → Nat
  | [] => 0
  | .created k :: rest => if k = key then creations key rest + 1 else creations key rest
  | _ :: rest => creations key rest

/-- `history` has the events, newest first, and no function reads it. -/
structure State (τ δ ν φ : Type) where
  keys : Nat → Slot φ
  tls : δ → Nat → Cell ν
  self : τ → Option δ
  history : List (Event τ ν)

/-- No key was created and no thread was started; the descriptors have any contents. -/
def Initial (s : State τ δ ν φ) : Prop :=
  s.keys = (fun _ => ⟨0, none⟩) ∧ s.self = (fun _ => none) ∧ s.history = []

/-- The calls that write; `start` is the creation of a thread on a descriptor, new or recycled. -/
inductive Action (τ δ ν φ : Type) where
  | start (t : τ) (d : δ)
  | keyCreate (destructor : Option φ)
  | keyDelete (key : Nat)
  | setspecific (t : τ) (key : Nat) (value : Option ν)
  deriving DecidableEq, Repr

variable [DecidableEq τ] [DecidableEq δ]

/-- The value that thread `t` set last for the key since the key was created last. -/
def lastValue (t : τ) (key : Nat) : List (Event τ ν) → Option ν
  | [] => none
  | .started u :: rest => if u = t then none else lastValue t key rest
  | .created k :: rest => if k = key then none else lastValue t key rest
  | .deleted k :: rest => if k = key then none else lastValue t key rest
  | .set u k value :: rest => if u = t ∧ k = key then value else lastValue t key rest

/-- Thread `t` is started on `d`, which no other thread has any more. -/
def State.start (s : State τ δ ν φ) (t : τ) (d : δ) : State τ δ ν φ where
  keys := s.keys
  tls := Function.update s.tls d clearedTls
  self := fun u => if u = t then some d else if s.self u = some d then none else s.self u
  history := .started t :: s.history

def step (s : State τ δ ν φ) : Action τ δ ν φ → Option (State τ δ ν φ)
  | .start t d => match s.self t with
    | none => some (s.start t d)
    | some _ => none
  | .keyCreate destructor => match keyCreate s.keys destructor with
    | (_, some k, keys) => some { s with keys := keys, history := .created k :: s.history }
    | (_, none, keys) => some { s with keys := keys }
  | .keyDelete key => match keyDelete s.keys key with
    | (ret, keys) =>
      some { s with keys := keys, history := if ret = 0 then .deleted key :: s.history else s.history }
  | .setspecific t key value => match s.self t with
    | some d => match setspecific s.keys (s.tls d) key value with
      | (ret, tls) => some { s with
          tls := Function.update s.tls d tls
          history := if ret = 0 then .set t key value :: s.history else s.history }
    | none => none

/-- What a step does, case by case. -/
inductive Stepped (s : State τ δ ν φ) : Action τ δ ν φ → State τ δ ν φ → Prop where
  | started {t d} (hself : s.self t = none) : Stepped s (.start t d) (s.start t d)
  | created {destructor k} (hk : k < maxKeys) (hunused : (s.keys k).seq % 2 = 0) :
      Stepped s (.keyCreate destructor) { s with
        keys := Function.update (bump s.keys k) k { bump s.keys k k with destructor := destructor }
        history := .created k :: s.history }
  | deleted {key} (hk : key < maxKeys) (hused : (s.keys key).seq % 2 = 1) :
      Stepped s (.keyDelete key) { s with keys := bump s.keys key, history := .deleted key :: s.history }
  | set {t d key value} (hself : s.self t = some d) (hk : key < maxKeys) (hused : (s.keys key).seq % 2 = 1) :
      Stepped s (.setspecific t key value) { s with
        tls := Function.update s.tls d (Function.update (s.tls d) key ⟨(s.keys key).seq, value⟩)
        history := .set t key value :: s.history }
  | failed {a} : Stepped s a s

theorem step_stepped {s s' : State τ δ ν φ} {a : Action τ δ ν φ} (h : step s a = some s') : Stepped s a s' := by
  cases a with
  | start t d =>
    simp only [step] at h
    split at h
    · rename_i hself; cases h; exact .started hself
    · cases h
  | keyCreate destructor =>
    rcases keyCreate_spec s.keys destructor with ⟨k, hk, hunused, he⟩ | ⟨-, he⟩
    · simp only [step, he, Option.some.injEq] at h
      exact h ▸ .created hk hunused
    · simp only [step, he, Option.some.injEq] at h
      exact h ▸ .failed
  | keyDelete key =>
    rcases keyDelete_spec s.keys key with ⟨hk, hused, he⟩ | ⟨-, he⟩
    · simp only [step, he, if_true, Option.some.injEq] at h
      exact h ▸ .deleted hk hused
    · simp only [step, he, EINVAL, Option.some.injEq] at h
      exact h ▸ .failed
  | setspecific t key value =>
    simp only [step] at h
    split at h
    · rename_i d hself
      rcases setspecific_spec s.keys (s.tls d) key value with ⟨hk, hused, he⟩ | ⟨-, he⟩
      · simp only [he, if_true, Option.some.injEq] at h
        exact h ▸ .set hself hk hused
      · have hs : s' = s := by simpa [he, EINVAL] using h.symm
        rw [hs]
        exact .failed
    · cases h

/-- The sequence numbers count the creations and deletions, and the cells agree with the history. -/
structure Inv (s : State τ δ ν φ) : Prop where
  count : ∀ key, (s.keys key).seq + (if live key s.history then 1 else 0) = 2 * creations key s.history
  range : ∀ key, live key s.history = true → key < maxKeys
  own : ∀ t u d, s.self t = some d → s.self u = some d → t = u
  older : ∀ t d key, s.self t = some d → (s.tls d key).seq ≤ (s.keys key).seq
  value : ∀ t d key, s.self t = some d → live key s.history = true → lastValue t key s.history =
    if (s.tls d key).seq = (s.keys key).seq then (s.tls d key).data else none
  dead : ∀ t key, live key s.history = false → lastValue t key s.history = none

section
omit [DecidableEq δ]

/-- The parity of the sequence number tells whether the key is live. -/
theorem Inv.odd {s : State τ δ ν φ} (h : Inv s) (key : Nat) :
    (s.keys key).seq % 2 = 1 ↔ live key s.history = true := by
  have hc := h.count key
  cases hl : live key s.history <;> simp only [hl, if_true, if_false, Bool.false_eq_true] at hc <;> simp <;> omega

theorem Inv.even {s : State τ δ ν φ} (h : Inv s) (key : Nat) :
    (s.keys key).seq % 2 = 0 ↔ live key s.history = false := by
  have hc := h.count key
  cases hl : live key s.history <;> simp only [hl, if_true, if_false, Bool.false_eq_true] at hc <;> simp <;> omega

theorem initial_inv {s : State τ δ ν φ} (h : Initial s) : Inv s := by
  obtain ⟨hk, hself, hh⟩ := h
  constructor
  · intro key; simp [hk, hh, live, creations]
  · intro key hl; simp [hh, live] at hl
  · intro t u d ht; simp [hself] at ht
  · intro t d key ht; simp [hself] at ht
  · intro t d key ht; simp [hself] at ht
  · intro t key _; simp [hh, lastValue]

theorem Inv.created {s : State τ δ ν φ} (h : Inv s) {k : Nat} {destructor : Option φ} (hk : k < maxKeys)
    (hunused : (s.keys k).seq % 2 = 0) (hfew : creations k s.history + 1 < 2 ^ 63) :
    Inv { s with
      keys := Function.update (bump s.keys k) k { bump s.keys k k with destructor := destructor }
      history := .created k :: s.history } := by
  have hcount := h.count k
  simp only [(h.even k).mp hunused, Bool.false_eq_true, if_false] at hcount
  have hseq : increment (s.keys k).seq = (s.keys k).seq + 1 := increment_of_lt (by omega)
  have hnew : ∀ key, (Function.update (bump s.keys k) k { bump s.keys k k with destructor := destructor } key).seq =
      if k = key then (s.keys k).seq + 1 else (s.keys key).seq := by
    intro key
    by_cases hkey : k = key
    · subst key; simp [hseq]
    · simp [hkey, Ne.symm hkey, bump_of_ne]
  constructor
  · intro key
    simp only [hnew, live, creations]
    by_cases hkey : k = key
    · subst key; simp only [if_true]; omega
    · simpa only [if_neg hkey] using h.count key
  · intro key hl
    simp only [live] at hl
    split at hl
    · rename_i hkey; exact hkey ▸ hk
    · exact h.range key hl
  · exact h.own
  · intro t d key ht
    have := h.older t d key ht
    rw [hnew]
    split
    · rename_i hkey; subst key; simp only; omega
    · exact this
  · intro t d key ht hl
    have := h.older t d key ht
    simp only [hnew, live, lastValue] at hl ⊢
    by_cases hkey : k = key
    · subst key
      rw [if_pos rfl, if_pos rfl, if_neg (by omega)]
    · simp only [if_neg hkey] at hl ⊢
      exact h.value t d key ht hl
  · intro t key hl
    simp only [live, lastValue] at hl ⊢
    split
    · rfl
    · rename_i hkey
      rw [if_neg hkey] at hl
      exact h.dead t key hl

theorem Inv.deleted {s : State τ δ ν φ} (h : Inv s) {k : Nat} (hused : (s.keys k).seq % 2 = 1)
    (hfew : creations k s.history < 2 ^ 63) :
    Inv { s with keys := bump s.keys k, history := .deleted k :: s.history } := by
  have hcount := h.count k
  simp only [(h.odd k).mp hused, if_true] at hcount
  have hseq : increment (s.keys k).seq = (s.keys k).seq + 1 := increment_of_lt (by omega)
  have hnew : ∀ key, (bump s.keys k key).seq = if k = key then (s.keys k).seq + 1 else (s.keys key).seq := by
    intro key
    by_cases hkey : k = key
    · subst key; simp [hseq]
    · simp [hkey, Ne.symm hkey, bump_of_ne]
  constructor
  · intro key
    simp only [hnew, live, creations]
    by_cases hkey : k = key
    · subst key; simp only [if_true, Bool.false_eq_true, if_false]; omega
    · simpa only [if_neg hkey] using h.count key
  · intro key hl
    simp only [live] at hl
    split at hl
    · cases hl
    · exact h.range key hl
  · exact h.own
  · intro t d key ht
    have := h.older t d key ht
    rw [hnew]
    split
    · rename_i hkey; subst key; simp only; omega
    · exact this
  · intro t d key ht hl
    simp only [hnew, live, lastValue] at hl ⊢
    by_cases hkey : k = key
    · rw [if_pos hkey] at hl; cases hl
    · simp only [if_neg hkey] at hl ⊢
      exact h.value t d key ht hl
  · intro t key hl
    simp only [live, lastValue] at hl ⊢
    split
    · rfl
    · rename_i hkey
      rw [if_neg hkey] at hl
      exact h.dead t key hl

end

/-- Who is on a descriptor after a thread was started. -/
theorem start_self {s : State τ δ ν φ} {t u : τ} {d e : δ} (h : (s.start t d).self u = some e) :
    (u = t ∧ e = d) ∨ (u ≠ t ∧ e ≠ d ∧ s.self u = some e) := by
  simp only [State.start] at h
  by_cases hu : u = t
  · rw [if_pos hu] at h
    cases h
    exact .inl ⟨hu, rfl⟩
  · rw [if_neg hu] at h
    by_cases hd : s.self u = some d
    · rw [if_pos hd] at h
      cases h
    · rw [if_neg hd] at h
      refine .inr ⟨hu, ?_, h⟩
      rintro rfl
      exact hd h

theorem Inv.started {s : State τ δ ν φ} (h : Inv s) (t : τ) (d : δ) : Inv (s.start t d) := by
  have hlast : ∀ u key, lastValue u key (s.start t d).history =
      if t = u then none else lastValue u key s.history := fun u key => rfl
  constructor
  · exact h.count
  · exact h.range
  · intro u v e hu hv
    rcases start_self hu with ⟨rfl, rfl⟩ | ⟨-, hne, hu⟩ <;> rcases start_self hv with ⟨rfl, hd⟩ | ⟨-, hd, hv⟩
    · rfl
    · exact absurd rfl hd
    · exact absurd hd hne
    · exact h.own u v e hu hv
  · intro u e key hu
    rcases start_self hu with ⟨-, rfl⟩ | ⟨-, hne, hu⟩
    · simp [State.start, clearedTls]
    · simpa [State.start, hne] using h.older u e key hu
  · intro u e key hu hl
    rw [hlast]
    rcases start_self hu with ⟨rfl, rfl⟩ | ⟨hut, hne, hu⟩
    · -- a cleared cell has no data, whatever the number of the slot
      simp [State.start, clearedTls]
    · simp only [if_neg (Ne.symm hut), State.start, Function.update_of_ne hne]
      exact h.value u e key hu hl
  · intro u key hl
    rw [hlast]
    split
    · rfl
    · exact h.dead u key hl

theorem Inv.set {s : State τ δ ν φ} (h : Inv s) {t : τ} {d : δ} {k : Nat} {value : Option ν}
    (hself : s.self t = some d) (hused : (s.keys k).seq % 2 = 1) :
    Inv { s with
      tls := Function.update s.tls d (Function.update (s.tls d) k ⟨(s.keys k).seq, value⟩)
      history := .set t k value :: s.history } := by
  have hlive := (h.odd k).mp hused
  -- no other thread is on `d`, so only the cell of `t` at `k` is written
  have hcell : ∀ u e key, s.self u = some e →
      Function.update s.tls d (Function.update (s.tls d) k ⟨(s.keys k).seq, value⟩) e key =
        if t = u ∧ k = key then ⟨(s.keys k).seq, value⟩ else s.tls e key := by
    intro u e key hu
    by_cases hut : t = u
    · subst u
      obtain rfl : d = e := Option.some.inj (hself.symm.trans hu)
      by_cases hkey : k = key
      · subst key; simp
      · simp [hkey, Ne.symm hkey]
    · have hde : e ≠ d := by
        rintro rfl
        exact hut (h.own t u e hself hu)
      simp [hut, hde]
  constructor
  · exact h.count
  · exact h.range
  · exact h.own
  · intro u e key hu
    simp only [hcell u e key hu]
    split
    · rename_i hk; rw [hk.2]
    · exact h.older u e key hu
  · intro u e key hu hl
    simp only [hcell u e key hu, lastValue]
    by_cases hk : t = u ∧ k = key
    · rw [if_pos hk, if_pos hk, hk.2, if_pos rfl]
    · rw [if_neg hk, if_neg hk]
      exact h.value u e key hu hl
  · intro u key hl
    simp only [lastValue]
    by_cases hk : t = u ∧ k = key
    · rw [← hk.2] at hl
      exact absurd (hlive.symm.trans hl) (by decide)
    · rw [if_neg hk]
      exact h.dead u key hl

theorem Inv.step {s s' : State τ δ ν φ} {a : Action τ δ ν φ} (h : Inv s) (hs : Stepped s a s')
    (hfew : ∀ key, creations key s'.history < 2 ^ 63) : Inv s' := by
  cases hs with
  | @started t d hself => exact h.started t d
  | @created destructor k hk hunused =>
    exact h.created hk hunused (by simpa [creations] using hfew k)
  | @deleted k hk hused => exact h.deleted hused (hfew k)
  | set hself hk hused => exact h.set hself hused
  | failed => exact h

theorem creations_mono {s s' : State τ δ ν φ} {a : Action τ δ ν φ} (hs : Stepped s a s') (key : Nat) :
    creations key s.history ≤ creations key s'.history := by
  cases hs with
  | created hk hunused => simp only [creations]; split <;> omega
  | _ => exact Nat.le_refl _

theorem reaches_inv {s : State τ δ ν φ} (h : Reaches Initial Keys.step anyStep s)
    (hfew : ∀ key, creations key s.history < 2 ^ 63) : Inv s := by
  refine h.invariant (I := fun s => (∀ key, creations key s.history < 2 ^ 63) → Inv s)
    (fun s h₀ _ => initial_inv h₀) (fun s a s' _ hi _ hs hfew => ?_) hfew
  have hs := step_stepped hs
  exact (hi fun key => Nat.lt_of_le_of_lt (creations_mono hs key) (hfew key)).step hs hfew

/-- What the four functions do in a state, in terms of what the calls so far have done. -/
structure KeyedMap (s : State τ δ ν φ) : Prop where
  get : ∀ t d key, s.self t = some d → getspecific s.keys (s.tls d) key = lastValue t key s.history
  getDead : ∀ t d key, s.self t = some d → maxKeys ≤ key ∨ live key s.history = false →
    getspecific s.keys (s.tls d) key = none
  getNew : ∀ t d key newer older, s.self t = some d → s.history = newer ++ .created key :: older →
    (∀ value, .set t key value ∉ newer) → getspecific s.keys (s.tls d) key = none
  getFresh : ∀ t d key newer older, s.self t = some d → s.history = newer ++ .started t :: older →
    (∀ value, .set t key value ∉ newer) → getspecific s.keys (s.tls d) key = none
  set : ∀ t d key value, s.self t = some d → (setspecific s.keys (s.tls d) key value).1 = 0 ∧
      key < maxKeys ∧ live key s.history = true ∨
    setspecific s.keys (s.tls d) key value = (-EINVAL, s.tls d) ∧ (maxKeys ≤ key ∨ live key s.history = false)
  create : ∀ destructor, (∃ k keys, keyCreate s.keys destructor = (0, some k, keys) ∧
      k < maxKeys ∧ live k s.history = false) ∨
    keyCreate s.keys destructor = (-ENOMEM, none, s.keys) ∧ ∀ k, k < maxKeys → live k s.history = true
  delete : ∀ key, (keyDelete s.keys key).1 = 0 ∧ key < maxKeys ∧ live key s.history = true ∨
    keyDelete s.keys key = (-EINVAL, s.keys) ∧ (maxKeys ≤ key ∨ live key s.history = false)

/-- A value is found after the last creation of its key and the start of its thread, if anywhere. -/
theorem lastValue_append {t : τ} {key : Nat} {newer older : List (Event τ ν)} {e : Event τ ν}
    (he : e = .created key ∨ e = .started t) (hset : ∀ value, .set t key value ∉ newer) :
    lastValue t key (newer ++ e :: older) = none := by
  induction newer with
  | nil => rcases he with rfl | rfl <;> simp [lastValue]
  | cons x newer ih =>
    have ih := ih fun value hv => hset value (List.mem_cons_of_mem x hv)
    cases x with
    | set u k value =>
      have hne : ¬ (u = t ∧ k = key) := by
        rintro ⟨rfl, rfl⟩
        exact hset value (List.mem_cons_self ..)
      rw [List.cons_append, lastValue, if_neg hne]
      exact ih
    | _ =>
      rw [List.cons_append, lastValue]
      split
      · rfl
      · exact ih

omit [DecidableEq δ] in
theorem Inv.get {s : State τ δ ν φ} (h : Inv s) {t : τ} {d : δ} {key : Nat} (ht : s.self t = some d) :
    getspecific s.keys (s.tls d) key = lastValue t key s.history := by
  unfold getspecific
  cases hl : live key s.history with
  | false =>
    have heven := (h.even key).mpr hl
    rw [if_pos (.inr ((keyUnused_eq_true _).mpr heven)), h.dead t key hl]
  | true =>
    have hused : keyUnused (s.keys key).seq = false := (keyUnused_eq_false _).mpr ((h.odd key).mpr hl)
    have hrange := h.range key hl
    rw [if_neg (by simp [hused]; omega), h.value t d key ht hl]

omit [DecidableEq δ] in
theorem Inv.keyedMap {s : State τ δ ν φ} (h : Inv s) : KeyedMap s := by
  have hdead : ∀ key, maxKeys ≤ key ∨ (s.keys key).seq % 2 = 0 → maxKeys ≤ key ∨ live key s.history = false :=
    fun key hk => hk.imp id (h.even key).mp
  constructor
  · exact fun t d key ht => h.get ht
  · intro t d key ht hk
    have hl : live key s.history = false := by
      rcases hk with hk | hk
      · exact Bool.eq_false_iff.mpr fun hl => absurd (h.range key hl) (by omega)
      · exact hk
    rw [h.get ht, h.dead t key hl]
  · intro t d key newer older ht hh hset
    rw [h.get ht, hh, lastValue_append (.inl rfl) hset]
  · intro t d key newer older ht hh hset
    rw [h.get ht, hh, lastValue_append (.inr rfl) hset]
  · intro t d key value ht
    rcases setspecific_spec s.keys (s.tls d) key value with ⟨hk, hused, he⟩ | ⟨hk, he⟩
    · exact .inl ⟨by rw [he], hk, (h.odd key).mp hused⟩
    · exact .inr ⟨he, hdead key hk⟩
  · intro destructor
    rcases keyCreate_spec s.keys destructor with ⟨k, hk, hunused, he⟩ | ⟨hall, he⟩
    · exact .inl ⟨k, _, he, hk, (h.even k).mp hunused⟩
    · exact .inr ⟨he, fun k hk => (h.odd k).mp (hall k hk)⟩
  · intro key
    rcases keyDelete_spec s.keys key with ⟨hk, hused, he⟩ | ⟨hk, he⟩
    · exact .inl ⟨by rw [he], hk, (h.odd key).mp hused⟩
    · exact .inr ⟨he, hdead key hk⟩

/-- In every run with fewer than 2^63 creations of each key, thread-specific data is a map for each
lifetime of a key. -/
theorem specific_refines_map {s : State τ δ ν φ} (h : Reaches Initial step anyStep s)
    (hfew : ∀ key, creations key s.history < 2 ^ 63) : KeyedMap s :=
  (reaches_inv h hfew).keyedMap

/-- Two threads start, a key is created, both set it, it is deleted and created again, and only the second
thread sets it again. -/
def recreated (t u : τ) (d e : δ) (v w : ν) : List (Action τ δ ν φ) :=
  [.start t d, .start u e, .keyCreate none, .setspecific t 0 (some v), .setspecific u 0 (some v), .keyDelete 0,
    .keyCreate none, .setspecific u 0 (some w)]

def blank : State τ δ ν φ := ⟨fun _ => ⟨0, none⟩, fun _ => clearedTls, fun _ => none, []⟩

theorem specific_refines_map_recreated : ∃ s : State (Fin 2) (Fin 2) Nat Nat,
    s.self 0 = some 0 ∧ s.self 1 = some 1 ∧ (s.tls 0 0).data = some 5 ∧
    getspecific s.keys (s.tls 0) 0 = none ∧ getspecific s.keys (s.tls 1) 0 = some 6 ∧ KeyedMap s := by
  obtain ⟨s, hr, h0, h1, hd, hg, hg', hh⟩ : ∃ s : State (Fin 2) (Fin 2) Nat Nat, Reaches Initial step anyStep s ∧
      s.self 0 = some 0 ∧ s.self 1 = some 1 ∧ (s.tls 0 0).data = some 5 ∧
      getspecific s.keys (s.tls 0) 0 = none ∧ getspecific s.keys (s.tls 1) 0 = some 6 ∧
      s.history = [.set 1 0 (some 6), .created 0, .deleted 0, .set 1 0 (some 5), .set 0 0 (some 5), .created 0,
        .started 1, .started 0] :=
    ⟨_, Reaches.run_get (show Initial blank from ⟨rfl, rfl, rfl⟩)
      (show (run step anyStep (recreated (0 : Fin 2) 1 (0 : Fin 2) 1 5 6) blank).isSome from by decide),
      by decide, by decide, by decide, by decide, by decide, by decide⟩
  refine ⟨s, h0, h1, hd, hg, hg', specific_refines_map hr fun key => ?_⟩
  rw [hh]
  simp only [creations]
  split <;> omega

end ThreadBites.Keys
