import ThreadBites.KeyValues

/-!
# The destructors of thread-specific data

`tb_tls_call_destructors` in a thread that exits. Between the start and the end of
a destructor the thread may set values and create and delete keys, of slots ahead
of the scan and behind it. What a check looks at is read again each time.
-/
namespace ThreadBites.KeyDestructors

open Transition
open Keys (Slot Cell Event keyUnused maxKeys keyCreate keyDelete getspecific setspecific live creations lastValue bump
  increment Stepped step_stepped)

variable {τ δ ν φ : Type}

/-- Where the thread is in `tb_tls_call_destructors`. -/
inductive Scan where
  | idle
  | slot (i : Nat)
  | calling (i : Nat)
  | done
  deriving DecidableEq, Repr

/-- A call of a destructor. -/
structure Call (ν φ : Type) where
  key : Nat
  destructor : φ
  value : ν
  deriving DecidableEq, Repr

/-- `registered` has what `tbthread_key_create` was given, newest first, `log` the calls, newest first, `entry` the
slots and cells when the scan began; `quiet` says that no destructor has called anything. No function reads them. -/
structure State (τ δ ν φ : Type) where
  base : Keys.State τ δ ν φ
  scan : Scan
  registered : List (Nat × Option φ)
  log : List (Call ν φ)
  entry : (Nat → Slot φ) × (Nat → Cell ν)
  quiet : Bool

/-- What a destructor may call. -/
inductive Callback (ν φ : Type) where
  | keyCreate (destructor : Option φ)
  | keyDelete (key : Nat)
  | setspecific (key : Nat) (value : Option ν)
  deriving DecidableEq, Repr

/-- The call as one of thread `t`. -/
def Callback.action (t : τ) : Callback ν φ → Keys.Action τ δ ν φ
  | .keyCreate destructor => .keyCreate destructor
  | .keyDelete key => .keyDelete key
  | .setspecific key value => .setspecific t key value

/-- A call of any thread before the scan, and the steps of the scan. -/
inductive Action (τ δ ν φ : Type) where
  | call (a : Keys.Action τ δ ν φ)
  | enter
  | check
  | callback (c : Callback ν φ)
  | ret
  deriving DecidableEq, Repr

/-- The condition in the loop: the destructor and the value that it finds. -/
def pending (keys : Nat → Slot φ) (tls : Nat → Cell ν) (i : Nat) : Option (φ × ν) :=
  if keyUnused (keys i).seq = false ∧ (tls i).seq = (keys i).seq then
    match (tls i).data, (keys i).destructor with
    | some data, some destructor => some (destructor, data)
    | _, _ => none
  else none

/-- The call that a slot is due: it has a destructor, and `tbthread_getspecific` would return a value. -/
def due (keys : Nat → Slot φ) (tls : Nat → Cell ν) (key : Nat) : Option (Call ν φ) :=
  match getspecific keys tls key, (keys key).destructor with
  | some value, some destructor => some ⟨key, destructor, value⟩
  | _, _ => none

/-- No key was created, no thread was started, and no destructor was called. -/
def Initial (s : State τ δ ν φ) : Prop :=
  Keys.Initial s.base ∧ s.scan = .idle ∧ s.registered = [] ∧ s.log = []

variable [DecidableEq τ] [DecidableEq δ]

/-- A call of one of the functions. -/
def State.advance (s : State τ δ ν φ) (a : Keys.Action τ δ ν φ) : Option (State τ δ ν φ) :=
  (Keys.step s.base a).map fun base => { s with
    base := base
    registered := match a with
      | .keyCreate destructor => match (keyCreate s.base.keys destructor).2.1 with
        | some k => (k, destructor) :: s.registered
        | none => s.registered
      | _ => s.registered }

/-- `self->tls[i].data = 0`, which counts as setting the value. -/
def clear (s : Keys.State τ δ ν φ) (t : τ) (d : δ) (i : Nat) : Keys.State τ δ ν φ :=
  { s with
    tls := Function.update s.tls d (Function.update (s.tls d) i { s.tls d i with data := none })
    history := .set t i none :: s.history }

/-- The steps of thread `t`, and of all threads before it enters the scan. -/
def step (t : τ) (s : State τ δ ν φ) : Action τ δ ν φ → Option (State τ δ ν φ)
  | .call a => if s.scan = .idle then s.advance a else none
  | .enter => match s.scan, s.base.self t with
    | .idle, some d => some { s with scan := .slot 0, entry := (s.base.keys, s.base.tls d), quiet := true }
    | _, _ => none
  | .check => match s.scan, s.base.self t with
    | .slot i, some d =>
      if i < maxKeys then match pending s.base.keys (s.base.tls d) i with
        | some (destructor, value) => some { s with
            base := clear s.base t d i, scan := .calling i, log := ⟨i, destructor, value⟩ :: s.log }
        | none => some { s with scan := .slot (i + 1) }
      else some { s with scan := .done }
    | _, _ => none
  | .callback c => match s.scan with
    | .calling _ => { s with quiet := false }.advance (c.action t)
    | _ => none
  | .ret => match s.scan with
    | .calling i => some { s with scan := .slot (i + 1) }
    | _ => none

/-- The destructor of each slot is the one that the key was created with last. -/
def Registered (keys : Nat → Slot φ) (registered : List (Nat × Option φ)) : Prop :=
  ∀ key, (registered.lookup key).join = (keys key).destructor

/-- The slots that the scan has left behind. -/
def Scan.passed : Scan → Nat
  | .idle => 0
  | .slot i => i
  | .calling i => i + 1
  | .done => maxKeys

/-- What holds however often a sequence number has wrapped. -/
structure Inv (s : State τ δ ν φ) : Prop where
  odd : ∀ key, (s.base.keys key).seq % 2 = 1 ↔ live key s.base.history = true
  registered : Registered s.base.keys s.registered
  passed : ∀ c ∈ s.log, c.key < s.scan.passed
  bounded : s.scan.passed ≤ maxKeys

omit [DecidableEq τ] [DecidableEq δ] in
theorem increment_mod_two (seq : Nat) : increment seq % 2 = (seq + 1) % 2 := by
  unfold increment
  omega

/-- The parity of the sequence number tells whether the key is live, even after it wraps. -/
theorem stepped_odd {s s' : Keys.State τ δ ν φ} {a : Keys.Action τ δ ν φ} (hs : Stepped s a s')
    (h : ∀ key, (s.keys key).seq % 2 = 1 ↔ live key s.history = true) (key : Nat) :
    (s'.keys key).seq % 2 = 1 ↔ live key s'.history = true := by
  cases hs with
  | started hself => exact h key
  | @created destructor k hk hunused =>
    have hodd := increment_mod_two (s.keys k).seq
    by_cases hkey : k = key
    · subst hkey
      simp [live]
      omega
    · simpa [live, hkey, Ne.symm hkey, Keys.bump_of_ne] using h key
  | @deleted k hk hused =>
    have heven := increment_mod_two (s.keys k).seq
    by_cases hkey : k = key
    · subst hkey
      simp [live]
      omega
    · simpa [live, hkey, Ne.symm hkey, Keys.bump_of_ne] using h key
  | set hself hk hused => exact h key
  | failed => exact h key

omit [DecidableEq τ] [DecidableEq δ] in
theorem Registered.created {keys : Nat → Slot φ} {registered : List (Nat × Option φ)} (h : Registered keys registered)
    (k : Nat) (destructor : Option φ) :
    Registered (Function.update (bump keys k) k { bump keys k k with destructor := destructor })
      ((k, destructor) :: registered) := by
  intro key
  by_cases hkey : key = k
  · subst hkey
    simp
  · have hne : (key == k) = false := by simpa using hkey
    rw [List.lookup_cons, hne, Function.update_of_ne hkey, Keys.bump_of_ne keys hkey]
    exact h key

omit [DecidableEq τ] [DecidableEq δ] in
theorem bump_destructor (keys : Nat → Slot φ) (k key : Nat) : (bump keys k key).destructor = (keys key).destructor := by
  unfold bump
  by_cases hkey : key = k
  · subst hkey
    simp
  · simp [hkey]

/-- A call is a step of the functions of the keys, and `registered` keeps up with it. -/
theorem advance_spec {s s' : State τ δ ν φ} {a : Keys.Action τ δ ν φ} (h : s.advance a = some s') :
    ∃ base registered, s' = { s with base := base, registered := registered } ∧ Stepped s.base a base ∧
      (Registered s.base.keys s.registered → Registered base.keys registered) := by
  obtain ⟨base, hbase, rfl⟩ := Option.map_eq_some_iff.mp h
  refine ⟨base, _, rfl, step_stepped hbase, fun hreg => ?_⟩
  cases a with
  | start t d =>
    simp only [Keys.step] at hbase
    split at hbase
    · cases hbase
      exact hreg
    · cases hbase
  | keyCreate destructor =>
    rcases Keys.keyCreate_spec s.base.keys destructor with ⟨k, -, -, he⟩ | ⟨-, he⟩ <;>
      simp only [Keys.step, he, Option.some.injEq] at hbase ⊢ <;> subst hbase
    · exact hreg.created k destructor
    · exact hreg
  | keyDelete key =>
    rcases Keys.keyDelete_spec s.base.keys key with ⟨-, -, he⟩ | ⟨-, he⟩ <;>
      simp only [Keys.step, he, Option.some.injEq] at hbase <;> subst hbase
    · exact fun k => (hreg k).trans (bump_destructor _ key k).symm
    · exact hreg
  | setspecific t key value =>
    simp only [Keys.step] at hbase
    split at hbase
    · cases hbase
      exact hreg
    · cases hbase

/-- What a step does, case by case. -/
inductive Moves (t : τ) (s : State τ δ ν φ) : State τ δ ν φ → Prop where
  | called {a base registered} (hscan : s.scan = .idle) (hs : Stepped s.base a base)
      (hreg : Registered s.base.keys s.registered → Registered base.keys registered) :
      Moves t s { s with base := base, registered := registered }
  | entered {d} (hscan : s.scan = .idle) (hself : s.base.self t = some d) :
      Moves t s { s with scan := .slot 0, entry := (s.base.keys, s.base.tls d), quiet := true }
  | destructor {i d destructor value} (hscan : s.scan = .slot i) (hself : s.base.self t = some d) (hi : i < maxKeys)
      (hp : pending s.base.keys (s.base.tls d) i = some (destructor, value)) :
      Moves t s { s with base := clear s.base t d i, scan := .calling i, log := ⟨i, destructor, value⟩ :: s.log }
  | skipped {i d} (hscan : s.scan = .slot i) (hself : s.base.self t = some d) (hi : i < maxKeys)
      (hp : pending s.base.keys (s.base.tls d) i = none) : Moves t s { s with scan := .slot (i + 1) }
  | finished {i} (hscan : s.scan = .slot i) (hi : maxKeys ≤ i) : Moves t s { s with scan := .done }
  | callback {i a base registered} (hscan : s.scan = .calling i) (hs : Stepped s.base a base)
      (hreg : Registered s.base.keys s.registered → Registered base.keys registered) :
      Moves t s { s with base := base, registered := registered, quiet := false }
  | returned {i} (hscan : s.scan = .calling i) : Moves t s { s with scan := .slot (i + 1) }

theorem step_moves {t : τ} {s s' : State τ δ ν φ} {a : Action τ δ ν φ} (h : step t s a = some s') : Moves t s s' := by
  cases a with
  | call a =>
    simp only [step] at h
    split at h
    · rename_i hscan
      obtain ⟨base, registered, rfl, hs, hreg⟩ := advance_spec h
      exact .called hscan hs hreg
    · cases h
  | enter =>
    simp only [step] at h
    split at h
    · rename_i d hscan hself
      cases h
      exact .entered hscan hself
    · cases h
  | check =>
    simp only [step] at h
    split at h
    · rename_i i d hscan hself
      split at h
      · rename_i hi
        split at h <;> rename_i hp <;> cases h
        · exact .destructor hscan hself hi hp
        · exact .skipped hscan hself hi hp
      · cases h
        exact .finished hscan (by omega)
    · cases h
  | callback c =>
    simp only [step] at h
    split at h
    · rename_i i hscan
      obtain ⟨base, registered, rfl, hs, hreg⟩ := advance_spec h
      exact .callback hscan hs hreg
    · cases h
  | ret =>
    simp only [step] at h
    split at h
    · rename_i i hscan
      cases h
      exact .returned hscan
    · cases h

omit [DecidableEq τ] [DecidableEq δ] in
theorem initial_inv {s : State τ δ ν φ} (h : Initial s) : Inv s := by
  obtain ⟨⟨hkeys, -, hhistory⟩, hscan, hreg, hlog⟩ := h
  constructor
  · intro key
    simp [hkeys, hhistory, live]
  · intro key
    simp [hkeys, hreg]
  · simp [hlog]
  · rw [hscan]
    exact Nat.zero_le _

omit [DecidableEq τ] [DecidableEq δ] in
theorem pending_spec {keys : Nat → Slot φ} {tls : Nat → Cell ν} {i : Nat} {destructor : φ} {value : ν}
    (h : pending keys tls i = some (destructor, value)) : (keys i).seq % 2 = 1 ∧ (tls i).seq = (keys i).seq ∧
      (tls i).data = some value ∧ (keys i).destructor = some destructor := by
  unfold pending at h
  split at h
  · rename_i hc
    rw [Keys.keyUnused_eq_false] at hc
    split at h
    · rename_i hdata hdestructor
      cases h
      exact ⟨hc.1, hc.2, hdata, hdestructor⟩
    · cases h
  · cases h

omit [DecidableEq τ] [DecidableEq δ] in
/-- The scan goes on without a call. -/
theorem Inv.goto {s : State τ δ ν φ} (h : Inv s) (scan : Scan) (entry : (Nat → Slot φ) × (Nat → Cell ν)) (quiet : Bool)
    (hle : s.scan.passed ≤ scan.passed) (hb : scan.passed ≤ maxKeys) :
    Inv { s with scan := scan, entry := entry, quiet := quiet } :=
  ⟨h.odd, h.registered, fun c hc => Nat.lt_of_lt_of_le (h.passed c hc) hle, hb⟩

theorem Inv.step {t : τ} {s s' : State τ δ ν φ} (h : Inv s) (hs : Moves t s s') : Inv s' := by
  have hbounded := h.bounded
  cases hs with
  | called hscan hs hreg => exact ⟨stepped_odd hs h.odd, hreg h.registered, h.passed, h.bounded⟩
  | entered hscan hself => exact h.goto (.slot 0) _ true (by rw [hscan]; exact Nat.le_refl 0) (Nat.zero_le _)
  | @destructor i d destructor value hscan hself hi hp =>
    refine ⟨h.odd, h.registered, fun c hc => ?_, hi⟩
    rcases List.mem_cons.mp hc with rfl | hc
    · exact Nat.lt_succ_self i
    · have hpassed := h.passed c hc
      rw [hscan] at hpassed
      exact Nat.lt_succ_of_lt hpassed
  | @skipped i d hscan hself hi hp => exact h.goto (.slot (i + 1)) _ _ (by rw [hscan]; exact Nat.le_succ i) hi
  | finished hscan hi => exact h.goto .done _ _ hbounded (Nat.le_refl _)
  | callback hscan hs hreg => exact ⟨stepped_odd hs h.odd, hreg h.registered, h.passed, h.bounded⟩
  | @returned i hscan =>
    rw [hscan] at hbounded
    exact h.goto (.slot (i + 1)) _ _ (by rw [hscan]; exact Nat.le_refl _) hbounded

theorem reaches_inv {t : τ} {s : State τ δ ν φ} (h : Reaches Initial (step t) anyStep s) : Inv s :=
  h.invariant (fun _ h₀ => initial_inv h₀) fun _ _ _ _ hi _ hs => hi.step (step_moves hs)

/-- The steps of the scan are steps of the functions of the keys, with the values that it clears. -/
theorem clear_inv {t : τ} {s : Keys.State τ δ ν φ} (h : Keys.Inv s) {d : δ} {i : Nat} (hself : s.self t = some d)
    (hused : (s.keys i).seq % 2 = 1) (hseq : (s.tls d i).seq = (s.keys i).seq) : Keys.Inv (clear s t d i) := by
  have hset : Keys.Inv { s with
      tls := Function.update s.tls d (Function.update (s.tls d) i ⟨(s.keys i).seq, none⟩)
      history := .set t i none :: s.history } := h.set hself hused
  rw [← hseq] at hset
  exact hset

theorem creations_le {t : τ} {s s' : State τ δ ν φ} (hs : Moves t s s') (key : Nat) :
    creations key s.base.history ≤ creations key s'.base.history := by
  cases hs with
  | called hscan hs hreg => exact Keys.creations_mono hs key
  | callback hscan hs hreg => exact Keys.creations_mono hs key
  | _ => exact Nat.le_refl _

theorem reaches_keys {t : τ} {s : State τ δ ν φ} (h : Reaches Initial (step t) anyStep s)
    (hfew : ∀ key, creations key s.base.history < 2 ^ 63) : Keys.Inv s.base := by
  refine h.invariant (I := fun s => (∀ key, creations key s.base.history < 2 ^ 63) → Keys.Inv s.base)
    (fun s h₀ _ => Keys.initial_inv h₀.1) (fun s a s' _ hi _ hstep hfew => ?_) hfew
  have hmoves := step_moves hstep
  have hbase := hi fun key => Nat.lt_of_le_of_lt (creations_le hmoves key) (hfew key)
  cases hmoves with
  | called hscan hs hreg => exact hbase.step hs hfew
  | callback hscan hs hreg => exact hbase.step hs hfew
  | destructor hscan hself hi hp =>
    obtain ⟨hused, hseq, -⟩ := pending_spec hp
    exact clear_inv hbase hself hused hseq
  | _ => exact hbase

/-- A call that the scan makes in a step from `s` to `s'`. -/
structure Called (t : τ) (s s' : State τ δ ν φ) (c : Call ν φ) : Prop where
  log : s'.log = c :: s.log
  once : c.key ∉ s.log.map Call.key
  live : live c.key s.base.history = true
  registered : s.registered.lookup c.key = some (some c.destructor)
  value : (∀ key, creations key s.base.history < 2 ^ 63) → lastValue t c.key s.base.history = some c.value
  cleared : ∀ d, s.base.self t = some d → (s'.base.tls d c.key).data = none

theorem moves_called {t : τ} {s s' : State τ δ ν φ} (h : Reaches Initial (step t) anyStep s) (hs : Moves t s s') :
    s'.log = s.log ∨ ∃ c, Called t s s' c := by
  have hinv := reaches_inv h
  cases hs with
  | @destructor i d destructor value hscan hself hi hp =>
    obtain ⟨hused, hseq, hdata, hdestructor⟩ := pending_spec hp
    refine .inr ⟨⟨i, destructor, value⟩, rfl, fun hmem => ?_, (hinv.odd i).mp hused, ?_, fun hfew => ?_, fun e he => ?_⟩
    · obtain ⟨c, hc, he⟩ := List.mem_map.mp hmem
      have hpassed := hinv.passed c hc
      rw [hscan, he] at hpassed
      exact Nat.lt_irrefl i hpassed
    · have hreg := hinv.registered i
      rw [hdestructor] at hreg
      simpa [Option.join_eq_some_iff] using hreg
    · rw [(reaches_keys h hfew).value t d i hself ((hinv.odd i).mp hused), if_pos hseq, hdata]
    · obtain rfl := Option.some.inj (hself.symm.trans he)
      simp [clear]
  | _ => exact .inl rfl

omit [DecidableEq τ] [DecidableEq δ] in
/-- What the loop checks is what `tbthread_getspecific` would return, if there is a destructor for it. -/
theorem due_eq {keys : Nat → Slot φ} {tls : Nat → Cell ν} {i : Nat} (hi : i < maxKeys) :
    due keys tls i = (pending keys tls i).map fun p => ⟨i, p.1, p.2⟩ := by
  have hrange : ¬ maxKeys ≤ i := by omega
  unfold due pending getspecific
  cases hused : keyUnused (keys i).seq
  · by_cases hseq : (tls i).seq = (keys i).seq
    · cases hdata : (tls i).data <;> cases hdestructor : (keys i).destructor <;> simp [hrange, hseq]
    · simp [hrange, hseq]
  · simp

omit [DecidableEq τ] [DecidableEq δ] in
theorem pending_congr {keys : Nat → Slot φ} {tls tls' : Nat → Cell ν} {i : Nat} (h : tls' i = tls i) :
    pending keys tls' i = pending keys tls i := by
  unfold pending
  rw [h]

/-- As long as no destructor calls anything, the scan has made the calls that were due of the slots it has passed, and
cleared their cells. -/
structure Progress (s : State τ δ ν φ) (d : δ) : Prop where
  keys : s.base.keys = s.entry.1
  log : s.log.reverse = (List.range s.scan.passed).filterMap (due s.entry.1 s.entry.2)
  ahead : ∀ k, s.scan.passed ≤ k → s.base.tls d k = s.entry.2 k
  cleared : ∀ k, k < s.scan.passed → due s.entry.1 s.entry.2 k ≠ none → (s.base.tls d k).data = none

/-- Where the scan is in a run in which no destructor has called anything. -/
structure Quiet (t : τ) (s : State τ δ ν φ) : Prop where
  idle : s.scan = .idle → s.log = []
  progress : s.scan ≠ .idle → s.quiet = true → ∃ d, s.base.self t = some d ∧ Progress s d

theorem filterMap_range_succ {α : Type} (f : Nat → Option α) (n : Nat) :
    (List.range (n + 1)).filterMap f = (List.range n).filterMap f ++ (f n).toList := by
  rw [List.range_succ, List.filterMap_append]
  cases hf : f n <;> simp [hf]

theorem Quiet.step {t : τ} {s s' : State τ δ ν φ} (h : Quiet t s) (hinv : Inv s) (hs : Moves t s s') : Quiet t s' := by
  cases hs with
  | called hscan hs hreg => exact ⟨h.idle, fun hne => absurd hscan hne⟩
  | @entered d hscan hself =>
    refine ⟨nofun, fun _ _ => ⟨d, hself, rfl, ?_, fun _ _ => rfl, fun k hk => absurd hk (Nat.not_lt_zero k)⟩⟩
    rw [h.idle hscan]
    rfl
  | @destructor i d destructor value hscan hself hi hp =>
    refine ⟨nofun, fun _ hquiet => ?_⟩
    obtain ⟨e, he, hprogress⟩ := h.progress (by rw [hscan]; exact nofun) hquiet
    obtain rfl := Option.some.inj (hself.symm.trans he)
    obtain ⟨hkeys, hlog, hahead, hcleared⟩ := hprogress
    rw [hscan] at hlog hahead hcleared
    have hdue : due s.entry.1 s.entry.2 i = some ⟨i, destructor, value⟩ := by
      rw [due_eq hi, ← hkeys, ← pending_congr (hahead i (Nat.le_refl i)), hp]
      rfl
    refine ⟨d, hself, hkeys, ?_, fun k hk => ?_, fun k hk hne => ?_⟩
    · simp only [Scan.passed] at hlog ⊢
      rw [List.reverse_cons, hlog, filterMap_range_succ, hdue]
      rfl
    · have hki : k ≠ i := fun he => absurd hk (by rw [he]; exact Nat.not_succ_le_self i)
      simpa [clear, hki] using hahead k (Nat.le_of_succ_le hk)
    · by_cases hki : k = i
      · subst hki
        simp [clear]
      · simpa [clear, hki] using hcleared k (Nat.lt_of_le_of_ne (Nat.le_of_lt_succ hk) hki) hne
  | @skipped i d hscan hself hi hp =>
    refine ⟨nofun, fun _ hquiet => ?_⟩
    obtain ⟨e, he, hprogress⟩ := h.progress (by rw [hscan]; exact nofun) hquiet
    obtain rfl := Option.some.inj (hself.symm.trans he)
    obtain ⟨hkeys, hlog, hahead, hcleared⟩ := hprogress
    rw [hscan] at hlog hahead hcleared
    have hdue : due s.entry.1 s.entry.2 i = none := by
      rw [due_eq hi, ← hkeys, ← pending_congr (hahead i (Nat.le_refl i)), hp]
      rfl
    refine ⟨d, hself, hkeys, ?_, fun k hk => hahead k (Nat.le_of_succ_le hk), fun k hk hne => ?_⟩
    · simp only [Scan.passed] at hlog ⊢
      rw [hlog, filterMap_range_succ, hdue]
      exact (List.append_nil _).symm
    · have hki : k ≠ i := by
        rintro rfl
        exact hne hdue
      exact hcleared k (Nat.lt_of_le_of_ne (Nat.le_of_lt_succ hk) hki) hne
  | @finished i hscan hi =>
    refine ⟨nofun, fun _ hquiet => ?_⟩
    obtain ⟨d, hself, hprogress⟩ := h.progress (by rw [hscan]; exact nofun) hquiet
    have hbounded := hinv.bounded
    have hend : s.scan.passed = maxKeys := by
      rw [hscan] at hbounded ⊢
      exact Nat.le_antisymm hbounded hi
    obtain ⟨hkeys, hlog, hahead, hcleared⟩ := hprogress
    rw [hend] at hlog hahead hcleared
    exact ⟨d, hself, hkeys, hlog, hahead, hcleared⟩
  | callback hscan hs hreg => exact ⟨fun hidle => absurd (hscan.symm.trans hidle) nofun, fun _ hquiet => by cases hquiet⟩
  | @returned i hscan =>
    refine ⟨nofun, fun _ hquiet => ?_⟩
    obtain ⟨d, hself, hkeys, hlog, hahead, hcleared⟩ := h.progress (by rw [hscan]; exact nofun) hquiet
    rw [hscan] at hlog hahead hcleared
    exact ⟨d, hself, hkeys, hlog, hahead, hcleared⟩

theorem reaches_quiet {t : τ} {s : State τ δ ν φ} (h : Reaches Initial (step t) anyStep s) : Quiet t s :=
  h.invariant (I := fun s => Quiet t s) (fun _ h₀ => ⟨fun _ => h₀.2.2.2, fun hne => absurd h₀.2.1 hne⟩)
    fun _ _ _ hr hq _ hs => hq.step (reaches_inv hr) (step_moves hs)

/-- A scan through which no destructor called anything has made the calls that were due when it began, in the order of
the keys, and left nothing of them. -/
structure Completed (t : τ) (s : State τ δ ν φ) : Prop where
  log : s.log.reverse = (List.range maxKeys).filterMap (due s.entry.1 s.entry.2)
  after : ∀ d key, s.base.self t = some d → due s.entry.1 s.entry.2 key ≠ none →
    getspecific s.base.keys (s.base.tls d) key = none

theorem completed {t : τ} {s : State τ δ ν φ} (h : Reaches Initial (step t) anyStep s) (hscan : s.scan = .done)
    (hquiet : s.quiet = true) : Completed t s := by
  obtain ⟨d, hself, -, hlog, -, hcleared⟩ := (reaches_quiet h).progress (by rw [hscan]; exact nofun) hquiet
  rw [hscan] at hlog hcleared
  refine ⟨hlog, fun e key he hne => ?_⟩
  obtain rfl := Option.some.inj (hself.symm.trans he)
  unfold getspecific
  split
  · rfl
  · rename_i hlive
    have hrange : key < maxKeys := by
      rw [not_or] at hlive
      omega
    split
    · exact hcleared key hrange hne
    · rfl

/-- The destructors that are called return, and call nothing themselves. -/
def Returning (_ : State τ δ ν φ) : Action τ δ ν φ → Prop
  | .check => True
  | .ret => True
  | _ => False

/-- A destructor's call leaves the descriptors of the threads alone. -/
theorem callback_self {t : τ} {b b' : Keys.State τ δ ν φ} {c : Callback ν φ} (hs : Stepped b (c.action t) b') :
    b'.self = b.self := by
  cases c <;> cases hs <;> rfl

/-- The thread that scans has a descriptor. -/
theorem reaches_self {t : τ} {s : State τ δ ν φ} (h : Reaches Initial (step t) anyStep s) (hscan : s.scan ≠ .idle) :
    ∃ d, s.base.self t = some d := by
  refine h.invariant (I := fun s => s.scan ≠ .idle → ∃ d, s.base.self t = some d) (fun _ h₀ hne => absurd h₀.2.1 hne)
    (fun s a s' _ hi _ hstep hne => ?_) hscan
  cases a with
  | callback c =>
    simp only [step] at hstep
    split at hstep
    · rename_i i hcalling
      obtain ⟨base, registered, rfl, hs, -⟩ := advance_spec hstep
      obtain ⟨d, hd⟩ := hi (by rw [hcalling]; exact nofun)
      exact ⟨d, (congrFun (callback_self hs) t).trans hd⟩
    · cases hstep
  | call a =>
    simp only [step] at hstep
    split at hstep
    · rename_i hidle
      obtain ⟨base, registered, rfl, -, -⟩ := advance_spec hstep
      exact absurd hidle hne
    · cases hstep
  | enter =>
    simp only [step] at hstep
    split at hstep
    · rename_i d hidle hself
      cases hstep
      exact ⟨d, hself⟩
    · cases hstep
  | check =>
    simp only [step] at hstep
    split at hstep
    · rename_i i d hslot hself
      split at hstep
      · split at hstep <;> cases hstep <;> exact ⟨d, hself⟩
      · cases hstep
        exact ⟨d, hself⟩
    · cases hstep
  | ret =>
    simp only [step] at hstep
    split at hstep
    · rename_i i hcalling
      cases hstep
      exact hi (by rw [hcalling]; exact nofun)
    · cases hstep

/-- How many steps a scan has left, two for each slot. -/
def Scan.left : Scan → Nat
  | .idle => 0
  | .slot i => 2 * (maxKeys - i) + 1
  | .calling i => 2 * (maxKeys - i)
  | .done => 0

/-- A step of the scan in which no destructor calls anything brings it nearer to its end. -/
theorem returning_step {t : τ} {s s' : State τ δ ν φ} {a : Action τ δ ν φ} (h : Inv s) (ha : Returning s a)
    (hs : step t s a = some s') : s'.scan ≠ .idle ∧ s'.scan.left < s.scan.left ∧ s'.quiet = s.quiet := by
  have hbounded := h.bounded
  cases a with
  | check =>
    simp only [step] at hs
    split at hs
    · rename_i i d hscan hself
      rw [hscan]
      split at hs
      · rename_i hi
        split at hs <;> cases hs
        · exact ⟨nofun, by simp only [Scan.left]; omega, rfl⟩
        · exact ⟨nofun, by simp only [Scan.left]; omega, rfl⟩
      · cases hs
        exact ⟨nofun, Nat.succ_pos _, rfl⟩
    · cases hs
  | ret =>
    simp only [step] at hs
    split at hs
    · rename_i i hscan
      cases hs
      rw [hscan] at hbounded ⊢
      simp only [Scan.passed] at hbounded
      exact ⟨nofun, by simp only [Scan.left]; omega, rfl⟩
    · cases hs
  | _ => cases ha

/-- Every scan whose destructors return comes to its end. -/
theorem scan_ends {t : τ} {s : State τ δ ν φ} (h : Reaches Initial (step t) anyStep s) (hscan : s.scan ≠ .idle) :
    Inevitable (step t) Returning (fun s' => s'.scan = .done ∧ (s.quiet = true → Completed t s')) s := by
  refine Inevitable.of_measure (I := fun s' => Reaches Initial (step t) anyStep s' ∧ s'.scan ≠ .idle ∧ s'.quiet = s.quiet)
    (fun s' => s'.scan.left) (fun s' ⟨hr, hne, hquiet⟩ hP => ?_) (fun s' a s'' ⟨hr, hne, hquiet⟩ hP hok hstep => ?_)
    ⟨h, hscan, rfl⟩
  · obtain ⟨d, hself⟩ := reaches_self hr hne
    cases hs : s'.scan with
    | idle => exact absurd hs hne
    | done => exact absurd ⟨hs, fun hq => completed hr hs (hquiet.trans hq)⟩ hP
    | calling i =>
      have hsome : (step t s' .ret).isSome := by simp only [step, hs, Option.isSome_some]
      exact ⟨.ret, _, trivial, (Option.some_get hsome).symm⟩
    | slot i =>
      have hsome : (step t s' .check).isSome := by
        simp only [step, hs, hself]
        split
        · split <;> rfl
        · rfl
      exact ⟨.check, _, trivial, (Option.some_get hsome).symm⟩
  · obtain ⟨hscan', hlt, hsame⟩ := returning_step (reaches_inv hr) hok hstep
    exact ⟨⟨hr.next trivial hstep, hscan', hsame.trans hquiet⟩, hlt⟩

/-- A destructor is called once for a slot, with the value cleared, and is the one of the live key. Its value was set in
the lifetime of the key as long as fewer than 2^63 keys were created in each slot. A scan whose destructors return ends,
and if no destructor has called anything, the calls are those that were due. -/
theorem tls_destructors {t : τ} {s : State τ δ ν φ} (h : Reaches Initial (step t) anyStep s) :
    (∀ a s', step t s a = some s' → s'.log = s.log ∨ ∃ c, Called t s s' c) ∧
    (s.scan = .done → s.quiet = true → Completed t s) ∧
    (s.scan ≠ .idle →
      Inevitable (step t) Returning (fun s' => s'.scan = .done ∧ (s.quiet = true → Completed t s')) s) :=
  ⟨fun _ _ hs => moves_called h (step_moves hs), completed h, scan_ends h⟩

/-- Nothing was done yet. -/
def blank : State Unit Unit Nat Nat := ⟨Keys.blank, .idle, [], [], (fun _ => ⟨0, none⟩, Keys.clearedTls), false⟩

theorem blank_initial : Initial blank := ⟨⟨rfl, rfl, rfl⟩, rfl, rfl, rfl⟩

/-- The thread starts, creates key 0 with destructor 7, sets it to 5, and enters the scan. -/
def entered : List (Action Unit Unit Nat Nat) :=
  [.call (.start () ()), .call (.keyCreate (some 7)), .call (.setspecific () 0 (some 5)), .enter]

/-- The destructor is called with the value, and the scan of all slots ends. -/
theorem tls_destructors_called : ∃ s : State Unit Unit Nat Nat, Reaches Initial (step ()) anyStep s ∧
    (∃ s', step () s .check = some s' ∧ s'.log = [⟨0, 7, 5⟩] ∧ ∃ c, Called () s s' c) ∧
    Inevitable (step ()) Returning (fun s' => s'.scan = .done ∧ Completed () s') s := by
  obtain ⟨s, hr, hscan, hquiet, s', hs, hlog, hempty⟩ : ∃ s : State Unit Unit Nat Nat,
      Reaches Initial (step ()) anyStep s ∧ s.scan ≠ .idle ∧ s.quiet = true ∧
      ∃ s', step () s .check = some s' ∧ s'.log = [⟨0, 7, 5⟩] ∧ s.log = [] :=
    ⟨_, Reaches.run_get blank_initial (show (run (step ()) anyStep entered blank).isSome from by decide),
      by decide, by decide, _, rfl, by decide, by decide⟩
  obtain ⟨hcalls, -, hends⟩ := tls_destructors hr
  refine ⟨s, hr, ⟨s', hs, hlog, ?_⟩, ?_⟩
  · rcases hcalls .check s' hs with hsame | hcalled
    · rw [hlog, hempty] at hsame
      cases hsame
    · exact hcalled
  · simpa only [hquiet, true_implies] using hends hscan

/-- Key 0 was created again `n` times since the value was set. -/
structure Recycled (n : Nat) (s : State Unit Unit Nat Nat) : Prop where
  reached : Reaches Initial (step ()) anyStep s
  scan : s.scan = .idle
  self : s.base.self () = some ()
  slot : s.base.keys 0 = ⟨(1 + 2 * n) % 2 ^ 64, some 7⟩
  cell : s.base.tls () 0 = ⟨1, some 5⟩
  log : s.log = []

theorem recycled_zero : ∃ s, Recycled 0 s :=
  ⟨_, Reaches.run_get blank_initial (show (run (step ()) anyStep (entered.take 3) blank).isSome from by decide),
    by decide, by decide, by decide, by decide, by decide⟩

/-- The loop of `tbthread_key_create` takes the first slot if it is free. -/
theorem keyCreate_first {keys : Nat → Slot φ} (destructor : Option φ) (h : keyUnused (keys 0).seq = true) :
    keyCreate keys destructor =
      (0, some 0, Function.update (bump keys 0) 0 { bump keys 0 0 with destructor := destructor }) := by
  change Keys.createLoop keys destructor 0 (1023 + 1) = _
  rw [Keys.createLoop, if_pos h]

theorem Recycled.succ {n : Nat} {s : State Unit Unit Nat Nat} (h : Recycled n s) :
    ∃ s', Recycled (n + 1) s' ∧ lastValue () 0 s'.base.history = none := by
  have hodd : (s.base.keys 0).seq % 2 = 1 := by
    have hseq : (s.base.keys 0).seq = (1 + 2 * n) % 2 ^ 64 := by rw [h.slot]
    omega
  have hused : keyUnused (s.base.keys 0).seq = false := (Keys.keyUnused_eq_false _).mpr hodd
  have hdelete : keyDelete s.base.keys 0 = (0, bump s.base.keys 0) := by simp [keyDelete, maxKeys, hused]
  have hfree : keyUnused (bump s.base.keys 0 0).seq = true := by
    rw [Keys.keyUnused_eq_true, Keys.bump_self, increment_mod_two]
    omega
  have hcreate := keyCreate_first (some 7) hfree
  have hdeleted : step () s (.call (.keyDelete 0)) = some { s with
      base := { s.base with keys := bump s.base.keys 0, history := .deleted 0 :: s.base.history } } := by
    simp [step, h.scan, State.advance, Keys.step, hdelete]
  have hcreated : step () { s with
      base := { s.base with keys := bump s.base.keys 0, history := .deleted 0 :: s.base.history } }
      (.call (.keyCreate (some 7))) = some { s with
        base := { s.base with
          keys := Function.update (bump (bump s.base.keys 0) 0) 0
            { bump (bump s.base.keys 0) 0 0 with destructor := some 7 }
          history := .created 0 :: .deleted 0 :: s.base.history }
        registered := (0, some 7) :: s.registered } := by
    simp [step, h.scan, State.advance, Keys.step, hcreate]
  have hslot : increment (increment (s.base.keys 0).seq) = (1 + 2 * (n + 1)) % 2 ^ 64 := by
    rw [h.slot]
    unfold increment
    simp only
    omega
  exact ⟨_, ⟨(h.reached.next trivial hdeleted).next trivial hcreated, h.scan, h.self, by simp [hslot], h.cell, h.log⟩,
    by simp [lastValue]⟩

theorem recycled (n : Nat) : ∃ s, Recycled (n + 1) s ∧ lastValue () 0 s.base.history = none := by
  induction n with
  | zero =>
    obtain ⟨s, hs⟩ := recycled_zero
    exact hs.succ
  | succ n ih =>
    obtain ⟨s, hs, -⟩ := ih
    exact hs.succ

/-- After 2^63 more creations the slot has the number again that it had when the value was set, and the destructor is
called with a value of another lifetime. -/
theorem tls_destructors_wrapped : ∃ (s s' : State Unit Unit Nat Nat) (c : Call Nat Nat),
    Reaches Initial (step ()) anyStep s ∧ step () s .check = some s' ∧ s'.log = c :: s.log ∧
    lastValue () c.key s.base.history = none := by
  obtain ⟨s, hs, hlast⟩ := recycled (2 ^ 63 - 1)
  have hslot : s.base.keys 0 = ⟨1, some 7⟩ := hs.slot.trans (by norm_num)
  have hpending : pending s.base.keys (s.base.tls ()) 0 = some (7, 5) := by
    simp [pending, hslot, hs.cell, keyUnused]
  have henter : step () s .enter = some { s with
      scan := .slot 0, entry := (s.base.keys, s.base.tls ()), quiet := true } := by
    simp [step, hs.scan, hs.self]
  have hcheck : step () { s with scan := .slot 0, entry := (s.base.keys, s.base.tls ()), quiet := true } .check =
      some { s with
        base := clear s.base () () 0, scan := .calling 0, log := ⟨0, 7, 5⟩ :: s.log,
        entry := (s.base.keys, s.base.tls ()), quiet := true } := by
    simp [step, hs.self, hpending, maxKeys]
  exact ⟨_, _, ⟨0, 7, 5⟩, hs.reached.next trivial henter, hcheck, rfl, hlast⟩

end ThreadBites.KeyDestructors
