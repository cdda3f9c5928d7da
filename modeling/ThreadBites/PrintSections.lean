import ThreadBites.Printing
import ThreadBites.FutexSections

/-!
# Printing under `print_lock`

Threads that call `tbprint`, each a list of calls one after the other. A call makes
its writes in the section between `tb_futex_lock(&print_lock)` and
`tb_futex_unlock(&print_lock)`, and does not look at how much of a write the kernel
took.
-/
namespace ThreadBites.Printing

open Transition WaitQueue CriticalSections

variable {τ : Type}

/-- A call of `tbprint`. -/
structure PrintCall where
  format : CString
  args : List (BitVec 64)

/-- Some writes one after the other, of each as many bytes as the kernel takes. -/
def writeAll (after : Body (List Byte) (List PrintCall) Empty Nat) :
    List Write → Body (List Byte) (List PrintCall) Empty Nat
  | [] => after
  | w :: ws => .ask fun n => .store (· ++ w.bytes.take n) (writeAll after ws)

/-- A call under the lock; the thread makes the calls `rest` afterwards. One that C leaves undefined does not end. -/
def printSection (text : BitVec 64 → CString) (call : PrintCall) (rest : List PrintCall) :
    Body (List Byte) (List PrintCall) Empty Nat :=
  match tbprint text call.format call.args with
  | .ok (ws, _) => writeAll (.done .nobody rest) ws
  | .error _ => .fault

/-- A thread enters the section of the next of its calls, and does nothing else. -/
def printCode (text : BitVec 64 → CString) : Code τ (List Byte) (List PrintCall) Empty Nat Empty where
  enter _ calls := match calls with
    | [] => none
    | call :: rest => some (printSection text call rest)
  outer _ _ _ _ := none
  waits _ := false
  asleep _ _ := false
  resume _ calls := calls

/-- Nothing is asked of a run. -/
def printFreely : Demands τ (List Byte) (List PrintCall) Empty := ⟨fun _ _ _ _ => True, fun _ => True⟩

instance : ∀ d t p o, Decidable ((printFreely (τ := τ)).outer d t p o) := fun _ _ _ _ => isTrue trivial

instance : ∀ d, Decidable ((printFreely (τ := τ)).leave d) := fun _ => isTrue trivial

theorem printCode_private (text : BitVec 64 → CString) : Private (printCode (τ := τ) text) printFreely where
  keeps h := by cases h
  blind _ h := by cases h
  demand _ h := h
  stays _ := rfl
  awake _ _ := rfl

/-- The bytes that the kernel took of some writes: of each a first part, mostly the whole. -/
inductive Taken : List Write → List Byte → Prop where
  | nil : Taken [] []
  | cons {w : Write} {ws : List Write} {bytes : List Byte} (n : Nat) (h : Taken ws bytes) :
    Taken (w :: ws) (w.bytes.take n ++ bytes)

/-- All of every write. -/
theorem Taken.all (ws : List Write) : Taken ws (ws.flatMap Write.bytes) := by
  induction ws with
  | nil => exact .nil
  | cons w ws ih => simpa using Taken.cons (w := w) w.bytes.length ih

theorem Taken.append {ws ws' : List Write} {bytes bytes' : List Byte} (h : Taken ws bytes) (h' : Taken ws' bytes') :
    Taken (ws ++ ws') (bytes ++ bytes') := by
  induction h with
  | nil => exact h'
  | cons n _ ih => simpa using Taken.cons n ih

theorem writeAll_ends {after : Body (List Byte) (List PrintCall) Empty Nat} {ws : List Write} {d : List Byte}
    {r : List Byte × Wake Empty × List PrintCall} (h : (writeAll after ws).Ends d r) :
    ∃ bytes, Taken ws bytes ∧ after.Ends (d ++ bytes) r := by
  induction ws generalizing d with
  | nil => exact ⟨[], .nil, by rw [List.append_nil]; exact h⟩
  | cons w ws ih =>
    obtain ⟨n, h⟩ := ends_ask.mp h
    obtain ⟨bytes, htaken, h⟩ := ih (ends_store.mp h)
    exact ⟨_, .cons n htaken, by simpa using h⟩

/-- Some of the writes of a call are made, after the bytes `before`. -/
def UnderWay (ws : List Write) (before d : List Byte) : Prop :=
  ∃ made toMake bytes, ws = made ++ toMake ∧ Taken made bytes ∧ d = before ++ bytes

theorem writeAll_always (p : List PrintCall) (before : List Byte) {ws made toMake : List Write} {bytes : List Byte}
    (hws : ws = made ++ toMake) (h : Taken made bytes) :
    (writeAll (.done .nobody p) toMake).Always (fun _ d => UnderWay ws before d) (before ++ bytes) := by
  induction toMake generalizing made bytes with
  | nil => exact ⟨made, [], bytes, hws, h, rfl⟩
  | cons w toMake ih =>
    have hnow : UnderWay ws before (before ++ bytes) := ⟨made, w :: toMake, bytes, hws, h, rfl⟩
    refine ⟨hnow, fun n => ⟨hnow, ?_⟩⟩
    have hmore := h.append (.cons (w := w) n .nil)
    rw [List.append_nil] at hmore
    simpa using ih (by simpa using hws) hmore

/-- A call that is over: who made it, and the bytes that were printed. -/
structure Printed (τ : Type) where
  who : τ
  call : PrintCall
  bytes : List Byte

/-- The writes that a call makes. -/
def Writes (text : BitVec 64 → CString) (call : PrintCall) (ws : List Write) : Prop :=
  ∃ ap, tbprint text call.format call.args = .ok (ws, ap)

theorem section_ends {text : BitVec 64 → CString} {call : PrintCall} {rest : List PrintCall} {d : List Byte}
    {r : List Byte × Wake Empty × List PrintCall} (h : (printSection text call rest).Ends d r) :
    ∃ ws bytes, Writes text call ws ∧ Taken ws bytes ∧ r = (d ++ bytes, .nobody, rest) := by
  unfold printSection at h
  split at h
  · rename_i ws ap hp
    obtain ⟨bytes, htaken, hr⟩ := writeAll_ends h
    exact ⟨ws, bytes, ⟨ap, hp⟩, htaken, ends_done.mp hr⟩
  · exact absurd h ends_fault

/-- A section under way has made some of the writes of the call. -/
theorem section_underWay {text : BitVec 64 → CString} {call : PrintCall} {rest : List PrintCall} {d d' : List Byte}
    {b : Body (List Byte) (List PrintCall) Empty Nat} (h : (printSection text call rest).Runs d b d') :
    d' = d ∨ ∃ ws, Writes text call ws ∧ UnderWay ws d d' := by
  unfold printSection at h
  split at h
  · rename_i ws ap hp
    have hall := writeAll_always rest d (List.nil_append ws).symm .nil
    rw [List.append_nil] at hall
    exact .inr ⟨ws, ⟨ap, hp⟩, (h.always hall).here⟩
  · exact .inl (h.always (φ := fun _ d' => d' = d) rfl).here

section Logs

variable [DecidableEq τ]

/-- The calls of a thread that are over, in their order. -/
def callsOf (log : List (Printed τ)) (t : τ) : List PrintCall := (log.filter (·.who = t)).map Printed.call

/-- What was printed is what the calls that are over printed, one after the other, and each thread has made
its calls in their order. -/
structure Logged (text : BitVec 64 → CString) (program : τ → List PrintCall)
    (s : CriticalSections.State τ (List Byte) (List PrintCall)) (log : List (Printed τ)) : Prop where
  data : s.data = log.flatMap Printed.bytes
  whole : ∀ e ∈ log, ∃ ws, Writes text e.call ws ∧ Taken ws e.bytes
  order : ∀ t, callsOf log t ++ s.place t = program t

end Logs

/-- Nothing is printed yet. -/
def PrintBegins (program : τ → List PrintCall) (s : CriticalSections.State τ (List Byte) (List PrintCall)) :
    Prop := s = ⟨[], program⟩

variable [DecidableEq τ] [Fintype τ]

/-- A call that is over is the last one of the log. -/
theorem Logged.enter {text : BitVec 64 → CString} {program : τ → List PrintCall}
    {s s' : CriticalSections.State τ (List Byte) (List PrintCall)} {log : List (Printed τ)}
    (h : Logged text program s log) {t : τ} {answers : List Nat} {woken : Option τ}
    (hs : CriticalSections.step (printCode text) s (.enter t answers woken) = some s') :
    ∃ e, Logged text program s' (log ++ [e]) := by
  simp only [CriticalSections.step] at hs
  obtain ⟨b, hb, hs⟩ := Option.bind_eq_some_iff.mp hs
  obtain ⟨r, hr, hs⟩ := Option.bind_eq_some_iff.mp hs
  cases hcalls : s.place t with
  | nil => rw [hcalls] at hb; cases hb
  | cons call rest =>
    rw [hcalls] at hb
    cases hb
    obtain ⟨ws, bytes, hws, htaken, rfl⟩ := section_ends ⟨answers, hr⟩
    cases hs
    refine ⟨⟨t, call, bytes⟩, by simp [h.data], fun e he => ?_, fun u => ?_⟩
    · rcases List.mem_append.mp he with he | he
      · exact h.whole e he
      · obtain rfl := List.mem_singleton.mp he
        exact ⟨ws, hws, htaken⟩
    · have horder := h.order u
      by_cases hu : u = t
      · subst u
        rw [hcalls] at horder
        simpa [callsOf] using horder
      · simpa [callsOf, hu, Ne.symm hu] using horder

theorem reaches_logged {text : BitVec 64 → CString} {program : τ → List PrintCall}
    {s : CriticalSections.State τ (List Byte) (List PrintCall)}
    (h : Reaches (PrintBegins program) (CriticalSections.step (printCode text))
      (Admitted (printCode text) printFreely) s) :
    ∃ log, Logged text program s log := by
  induction h with
  | start h =>
    subst h
    exact ⟨[], rfl, by simp, fun t => rfl⟩
  | @next s s' a _ _ hs ih =>
    obtain ⟨log, hlog⟩ := ih
    cases a with
    | outer t o => exact o.elim
    | enter t answers woken =>
      obtain ⟨e, he⟩ := hlog.enter hs
      exact ⟨_, he⟩

/-- Calls of `tbprint` by any number of threads never print into one another: at every moment the output is
what the calls that are over printed, one after the other, and then what the call under `print_lock` has
printed so far. Each thread's calls are made in their order. -/
theorem tbprint_calls_apart {text : BitVec 64 → CString} {program : τ → List PrintCall}
    {c : Fine (FutexLock.sectionLock (τ := τ)) (List Byte) (List PrintCall) Empty Nat}
    (h : Reaches (FineInitial (PrintBegins program)) (fineStep (printCode text)) (FineAdmitted printFreely) c) :
    ∃ log : List (Printed τ), (∀ e ∈ log, ∃ ws, Writes text e.call ws ∧ Taken ws e.bytes) ∧
      (∀ t calls, (c.spot t).place = some calls → callsOf log t ++ calls = program t) ∧
      (c.Quiet → c.data = log.flatMap Printed.bytes) ∧
      ∀ t b, c.spot t = .inside b → ∃ call rest, callsOf log t ++ call :: rest = program t ∧
        (c.data = log.flatMap Printed.bytes ∨
          ∃ ws, Writes text call ws ∧ UnderWay ws (log.flatMap Printed.bytes) c.data) := by
  obtain ⟨s, hs, hdata, hplace, hinside⟩ := (printCode_private text).reaches_atomic h
  obtain ⟨log, hlog⟩ := reaches_logged hs
  refine ⟨log, hlog.whole, fun t calls ht => ?_, fun hq => ?_, fun t b ht => ?_⟩
  · rw [← hplace t calls ht]
    exact hlog.order t
  · rw [hdata hq, hlog.data]
  · obtain ⟨b₀, hb₀, hruns⟩ := hinside t b ht
    have horder := hlog.order t
    cases hcalls : s.place t with
    | nil => rw [hcalls] at hb₀; cases hb₀
    | cons call rest =>
      rw [hcalls] at hb₀ horder
      cases hb₀
      refine ⟨call, rest, horder, ?_⟩
      rw [← hlog.data]
      exact section_underWay hruns

/-- Each thread prints once. -/
def hello (_ : τ) : List PrintCall := [⟨⟨chars "hello", by decide⟩, []⟩]

def helloBegins : Fine (FutexLock.sectionLock (τ := τ)) (List Byte) (List PrintCall) Empty Nat :=
  ⟨FutexLock.State.start, [], fun t => .out (hello t)⟩

/-- `t` has printed, and the kernel has taken two bytes of what `u` prints. -/
def twoTaken (t u : τ) : List (FineAction (FutexLock.sectionLock (τ := τ)) Nat Empty) :=
  [.lock t, .within (.lockCas t), .enter t, .ask t 5, .instr t, .leave t none, .within (.unlockCas t),
    .within (.futexWake t none), .finish t, .lock u, .within (.lockCas u), .enter u, .ask u 2, .instr u]

/-- Every string is empty. -/
def noStrings (_ : BitVec 64) : CString := ⟨[], by decide⟩

theorem tbprint_calls_apart_two :
    ∃ c : Fine (FutexLock.sectionLock (τ := Fin 2)) (List Byte) (List PrintCall) Empty Nat,
      ¬c.Quiet ∧ c.data = chars "hellohe" ∧ ∃ log : List (Printed (Fin 2)), callsOf log 0 = hello 0 := by
  have hsome : ((run (fineStep (printCode noStrings)) (FineAdmitted printFreely) (twoTaken 0 1) helloBegins).map
      fun c : Fine (FutexLock.sectionLock (τ := Fin 2)) (List Byte) (List PrintCall) Empty Nat =>
        (decide c.Quiet, c.data, (c.spot 0).place.map List.length)) = some (false, chars "hellohe", some 0) := by
    decide +kernel
  obtain ⟨c, hc, he⟩ := Option.map_eq_some_iff.mp hsome
  simp only [Prod.mk.injEq, decide_eq_false_iff_not, Option.map_eq_some_iff] at he
  obtain ⟨hquiet, hdata, calls, hcalls, hlength⟩ := he
  obtain ⟨log, -, horder, -⟩ := tbprint_calls_apart (.run _ (.start ⟨_, rfl, rfl⟩) hc)
  have hall := horder 0 calls hcalls
  rw [List.length_eq_zero_iff.mp hlength, List.append_nil] at hall
  exact ⟨c, hquiet, hdata, log, hall⟩

end ThreadBites.Printing
