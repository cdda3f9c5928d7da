import ThreadBites.DescriptorCalls

/-!
# Runs whose steps are orderly

Each step that is orderly keeps the invariant, so it holds of every state that a
run of such steps reaches.
-/
namespace ThreadBites.Threads

open Transition WaitQueue

variable {τ δ : Type} {main : τ} {s : State τ δ}

theorem Initial.inv (h : Initial main s) : Inv main s where
  lists := {
    usedNodup := by simp [h.used]
    freeNodup := by simp [h.free]
    used := fun d => by simp [h.used, h.role, Role.inUsed]
    free := fun d => by simp [h.free, h.role]
    fresh := fun d _ => h.role d }
  initial := ⟨by simp [h.heap], h.role _, by simp [State.phase, h.user, Pc.phase]⟩
  desc d := {
    lent := fun u hu => by simp [h.role] at hu
    unused := fun _ => h.last d
    created := fun u hu => by simp [h.last] at hu
    setup := fun u _ hu => by simp [h.last] at hu
    word := fun u hu => by simp [h.last] at hu
    freeWord := fun hf => by simp [h.role] at hf
    blank := fun _ hb => by simp [h.role] at hb
    unjoined := fun u hu => by simp [h.last] at hu
    status := fun u hu => by simp [h.role] at hu }
  thread u := {
    made := fun t ht => by simp [h.record, Record.empty] at ht
    active := fun hu ha => by simp [State.phase, h.unborn u hu, Pc.phase, Phase.active] at ha
    leaving := fun hu hl => by simp [State.phase, h.unborn u hu, Pc.phase] at hl
    early := fun _ => h.exiting u
    releases := fun _ => by simp [h.record, Record.empty] }
  placed t := by
    by_cases ht : t = main
    · rw [ht, h.user]; trivial
    · rw [h.unborn t ht]; trivial
  values v hv := by simp [h.values] at hv

variable [DecidableEq τ]

/-- A thread moves within its phase, and only what it relies on changes. -/
theorem Inv.place (h : Inv main s) {t : τ} {p : Pc τ δ} (hp : p.phase = s.phase t)
    (hplaced : Placed s.toShared s.phase t p) : Inv main (s.goto t p) :=
  h.goto hp ⟨s.calls, s.values, rfl, h.values⟩ hplaced

variable [DecidableEq δ] [Fintype τ]

theorem Inv.step (h : Inv main s) {s' : State τ δ} {a : Action τ δ} (ha : Orderly s a) (hs : Stepped s a s') :
    Inv main s' := by
  cases hs with
  | @create t attr mapped hpc =>
    refine h.place ?_ ?_
    · rw [State.phase, hpc]
      cases mapped <;> rfl
    · cases mapped <;> trivial
  | @mprotect t attr granted hpc =>
    refine h.place ?_ ?_
    · rw [State.phase, hpc]
      cases granted <;> rfl
    · cases granted
      · exact rfl
      · trivial
  | tookNone hpc _ => exact h.place (by rw [State.phase, hpc]; rfl) trivial
  | took hpc hf => exact h.took hpc hf
  | allocate hpc hd => exact h.allocate hpc hd
  | addUsed hpc => exact h.addUsed hpc
  | clear hpc => exact h.clear hpc
  | fill hpc => exact h.fill hpc
  | cloned hpc hu hk => exact h.cloned hpc hu hk
  | @cloneFailed t d attr hpc =>
    have hplaced := h.placed t
    rw [hpc] at hplaced
    exact h.place (by rw [State.phase, hpc]; rfl) hplaced
  | storeTid hpc => exact h.storeTid hpc
  | @setSched t d u ok hpc =>
    have hplaced := h.placed t
    rw [hpc] at hplaced
    exact h.place (by rw [State.phase, hpc]; rfl) hplaced
  | @storeStart t d u ok hpc =>
    have ha : Settles s (s.pc t) := ha
    rw [hpc] at ha
    cases ok with
    | true => exact h.storeOk hpc ha
    | false => exact h.storeFailed hpc ha.1 ha.2
  | wakeStart hpc hw => exact h.wakeStart hpc hw
  | readTid hpc => exact h.readTid hpc
  | waitTid hpc => exact h.waitTid hpc
  | @interrupted t d k w hpc =>
    have hplaced := h.placed t
    rw [hpc] at hplaced
    exact h.place (by rw [State.phase, hpc]; rfl) ⟨hplaced.1, hplaced.2.1⟩
  | readRetval hpc => exact h.readRetval hpc
  | release hpc => exact h.release hpc
  | started hpc => exact h.started hpc
  | @checkStart t hpc =>
    have hp : s.phase t = .starting := by rw [State.phase, hpc]; rfl
    by_cases hok : (s.mem (s.self t)).startStatus = .ok
    · rw [if_neg (by simpa using hok)]
      exact h.go hp (.inl ⟨rfl, by rw [hok]; decide⟩) trivial
    · rw [if_pos hok]
      exact h.place (by rw [hp]; rfl) trivial
  | @startWait t hpc =>
    refine h.place ?_ ?_
    · rw [State.phase, hpc]
      split <;> rfl
    · split <;> trivial
  | startInterrupted hpc => exact h.place (by rw [State.phase, hpc]; rfl) trivial
  | @recheckStart t hpc =>
    have hp : s.phase t = .starting := by rw [State.phase, hpc]; rfl
    by_cases hexit : (s.mem (s.self t)).startStatus = .exit
    · rw [if_pos hexit]
      exact h.go hp (.inr ⟨rfl, hexit⟩) trivial
    · rw [if_neg hexit]
      exact h.go hp (.inl ⟨rfl, hexit⟩) trivial
  | exit hpc => exact h.exit hpc _
  | exitSection hpc he => exact h.exitSection hpc he
  | @terminate u hpc =>
    refine h.terminate hpc fun v d attr hv => ?_
    have hstores := ha v
    rw [hv] at hstores
    simp [Pc.stores] at hstores
  | notDetached => exact h
  | detached hpc he => exact h.detached hpc he
  | @notJoined t d e hpc =>
    refine h.goto (by rw [State.phase, hpc]) ?_ trivial
    unfold Shared.called
    split
    · exact ⟨_, s.values, rfl, h.values⟩
    · exact ⟨s.calls, s.values, rfl, h.values⟩
  | joined hpc he => exact h.joined hpc he ha

theorem reaches_inv {ok : State τ δ → Action τ δ → Prop} (hok : ∀ s a, ok s a → Orderly s a)
    (h : Reaches (Initial main) step ok s) : Inv main s :=
  h.invariant (I := Inv main) (fun _ h₀ => h₀.inv) fun s a _ _ hi ha hs => hi.step (hok s a ha) (step_stepped hs).2

end ThreadBites.Threads
