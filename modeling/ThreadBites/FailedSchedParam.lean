import ThreadBites.Cancellation
import ThreadBites.Scheduling

/-!
# A failed tbthread_setschedparam

The user setting is stored before the kernel is asked, and stays when it refuses.
Nothing shows at first. The next section under the lock of the descriptor that
computes the setting of the thread applies it.
-/
namespace ThreadBites.Sched

open Cancel (ESRCH)

variable {μ : Type} [DecidableEq μ]

/-- The sections under the lock of a descriptor that may compute the setting of its thread: of a lock, of an
unlock, and of another thread that blocks. `ret` is what `sched_setscheduler` returns. -/
inductive Resched (μ : Type) where
  | protectSched (m : μ) (ret : Int)
  | protectUnsched (m : μ) (ret : Int)
  | inheritAdd (m : μ)
  | inheritUnsched (m : μ) (ret : Int)
  | inheritSched (m : μ) (info : SchedInfo) (ret : Int)
  deriving DecidableEq, Repr

def Resched.apply (mutexInfo : μ → SchedInfo) (th : Thread μ) : Resched μ → Thread μ
  | .protectSched m ret => protectMutexSched mutexInfo m th ret
  | .protectUnsched m ret => protectMutexUnsched mutexInfo m th ret
  | .inheritAdd m => inheritMutexAdd m th
  | .inheritUnsched m ret => inheritMutexUnsched mutexInfo m th ret
  | .inheritSched m info ret => inheritMutexSched mutexInfo m info th ret

def resched (mutexInfo : μ → SchedInfo) (l : List (Resched μ)) (th : Thread μ) : Thread μ :=
  l.foldl (Resched.apply mutexInfo) th

/-- `tbthread_setschedparam`: the thread, and what is returned. The lock of the descriptor is taken after the
setting was stored, and other sections run before it. -/
def setschedparam (mutexInfo : μ → SchedInfo) (found : Bool) (policy priority : Int) (others : List (Resched μ))
    (ret : Int) (th : Thread μ) : Thread μ × Int :=
  match schedParam policy priority with
  | .error e => (resched mutexInfo others th, e)
  | .ok info =>
      if found then
        ((resched mutexInfo others { th with userSchedInfo := info }).computeSched mutexInfo ret, ret)
      else (resched mutexInfo others th, -ESRCH)

/-- If the call fails, the thread is in all that it does as if the call had not been made. -/
def NoEffect (mutexInfo : μ → SchedInfo) (found : Bool) (policy priority ret : Int) (th : Thread μ) : Prop :=
  ∀ others, (setschedparam mutexInfo found policy priority others ret th).2 ≠ 0 →
    (setschedparam mutexInfo found policy priority others ret th).1.userSchedInfo =
      (resched mutexInfo others th).userSchedInfo ∧
    (setschedparam mutexInfo found policy priority others ret th).1.schedInfo = (resched mutexInfo others th).schedInfo ∧
    ∀ later, (resched mutexInfo later (setschedparam mutexInfo found policy priority others ret th).1) =
      resched mutexInfo later (resched mutexInfo others th)

variable {mutexInfo : μ → SchedInfo}

omit [DecidableEq μ] in
theorem computeSched_refused {th : Thread μ} {ret : Int} (h : ret ≠ 0) : th.computeSched mutexInfo ret = th := by
  rw [Thread.computeSched, Thread.setSched, if_neg h]

/-- A call that stored its setting and was refused has left it there. -/
theorem setschedparam_refused {policy priority ret : Int} {info : SchedInfo} {others : List (Resched μ)} {th : Thread μ}
    (hi : schedParam policy priority = .ok info) (hret : ret ≠ 0) :
    setschedparam mutexInfo true policy priority others ret th =
      (resched mutexInfo others { th with userSchedInfo := info }, ret) := by
  simp only [setschedparam, hi, if_true, computeSched_refused hret]

/-- A failed call has no effect exactly when it stored nothing new. -/
theorem setschedparam_failed {found : Bool} {policy priority ret : Int} {th : Thread μ} :
    NoEffect mutexInfo found policy priority ret th ↔
      ∀ info, schedParam policy priority = .ok info → found = true → ret ≠ 0 → info = th.userSchedInfo := by
  constructor
  · rintro h info hi rfl hret
    have hcall : setschedparam mutexInfo true policy priority [] ret th = ({ th with userSchedInfo := info }, ret) :=
      setschedparam_refused hi hret
    have huser := h []
    rw [hcall] at huser
    exact (huser hret).1
  · intro h others hne
    cases hi : schedParam policy priority with
    | error e => simp [setschedparam, hi]
    | ok info =>
      cases found with
      | false => simp [setschedparam, hi]
      | true =>
        have hret : ret ≠ 0 := by
          simpa only [setschedparam, hi, if_true] using hne
        obtain rfl := h info hi rfl hret
        rw [setschedparam_refused hi hret]
        exact ⟨rfl, rfl, fun _ => rfl⟩

/-- A thread with `SCHED_FIFO` and priority 10 that holds nothing. -/
def fifoTen : Thread Unit := ⟨⟨.fifo, 10⟩, ⟨.fifo, 10⟩, [], []⟩

/-- The kernel refuses `SCHED_FIFO` with priority 50, and a later lock of a mutex with ceiling 20 asks for it again. -/
theorem setschedparam_failed_later :
    ¬ NoEffect (fun _ => ⟨.fifo, 20⟩) true 1 50 (-1) fifoTen ∧
    (resched (fun _ => ⟨.fifo, 20⟩) [.protectSched () 0]
      (setschedparam (fun _ => ⟨.fifo, 20⟩) true 1 50 [] (-1) fifoTen).1).schedInfo = ⟨.fifo, 50⟩ ∧
    (resched (fun _ => ⟨.fifo, 20⟩) [.protectSched () 0] fifoTen).schedInfo = ⟨.fifo, 20⟩ :=
  ⟨fun h => absurd (h [] (by decide)).1 (by decide), by decide, by decide⟩

end ThreadBites.Sched
