import ThreadBites.CriticalSections

/-!
# The system of single steps refines the atomic one

A section counts as made when it wakes and calls `unlock`. Until then the atomic
system is as the section began. Steps that others make meanwhile are made there at
once if they commute with the section. Those that see what the section wrote are
put off until it is over: a party that has one put off only waits for the lock.
-/
namespace CriticalSections

open Transition WaitQueue

variable {τ D P Q ι ω : Type}
variable {L : Lock τ} {C : Code τ D P Q ι ω} {ok : Demands τ D P ω} {init : State τ D P → Prop}

/-- A party that can do nothing at its place but enter its section, and that no wake concerns. -/
def Pending (C : Code τ D P Q ι ω) (t : τ) (p : P) : Prop :=
  (∀ d o, C.outer d t p o = none) ∧ ∀ q, C.asleep q p = false

/-- A step from `p` to `p'` that can be made when the section `b` under way is over. -/
def PutOff (C : Code τ D P Q ι ω) (ok : Demands τ D P ω) (d : D) (b : Body D P Q ι) (t : τ) (p p' : P) : Prop :=
  C.waits p = true ∧ (∀ q, C.asleep q p = false) ∧ Pending C t p' ∧
    ∃ o, ∀ r, b.Ends d r → ok.outer r.1 t p o ∧ C.outer r.1 t p o = some (r.1, p')

/-- A step outside that can be made before the section under way as well. -/
def Commutes (C : Code τ D P Q ι ω) (ok : Demands τ D P ω) (d₀ : D) (b₀ b : Body D P Q ι)
    (t : τ) (p : P) (o : ω) (r : D × P) : Prop :=
  ∃ d', ok.outer d₀ t p o ∧ C.outer d₀ t p o = some (d', r.2) ∧ b₀.Runs d' b r.1

/-- What the atomic system asks of the steps outside of sections. -/
structure Steady [Fintype τ] [DecidableEq τ] (C : Code τ D P Q ι ω) (ok : Demands τ D P ω) (init : State τ D P → Prop) : Prop where
  entry_awake : ∀ {t p}, (C.enter t p).isSome → ∀ q, C.asleep q p = false
  exit_awake : ∀ {t p b d r}, C.enter t p = some b → b.Ends d r → ∀ q, C.asleep q r.2.2 = false
  keeps : ∀ {d t p o r}, C.outer d t p o = some r → r.1 = d ∨ ∀ p, C.waits p = false
  outside : ∀ {s t b₀ b d u o r}, Reaches init (step C) (Admitted C ok) s → C.enter t (s.place t) = some b₀ →
    b₀.Runs s.data b d → u ≠ t → ok.outer d u (s.place u) o → C.outer d u (s.place u) o = some r →
    Commutes C ok s.data b₀ b u (s.place u) o r ∨ r.1 = d ∧ PutOff C ok d b u (s.place u) r.2

/-- What the spot of a party says about the lock. -/
def Spot.Agrees (C : Code τ D P Q ι ω) (t : τ) (x : Phase) : Spot D P Q ι → Prop
  | .out _ => x = .free
  | .locking p => (C.enter t p).isSome ∧ (x = .acquiring ∨ x = .held)
  | .inside _ => x = .held
  | .unlocking p => (x = .releasing ∨ x = .free) ∧ ∀ q, C.asleep q p = false

/-- A step of the lock leaves a spot that agreed in agreement. -/
theorem Spot.Agrees.goes {t : τ} {y : Spot D P Q ι} {x x' : Phase} (h : y.Agrees C t x) (hx : x.Goes x') :
    y.Agrees C t x' := by
  cases y with
  | out p => cases hx <;> cases h
  | locking p =>
    obtain ⟨hp, hx' | hx'⟩ := h <;> cases hx <;> cases hx'
    · exact ⟨hp, .inl rfl⟩
    · exact ⟨hp, .inr rfl⟩
  | inside b => cases hx <;> cases h
  | unlocking p =>
    obtain ⟨hx' | hx', hp⟩ := h <;> cases hx <;> cases hx'
    · exact ⟨.inl rfl, hp⟩
    · exact ⟨.inr rfl, hp⟩

structure Coordinated (C : Code τ D P Q ι ω) (c : Fine L D P Q ι) : Prop where
  inv : L.Inv c.lock
  agrees : ∀ t, (c.spot t).Agrees C t (L.phase c.lock t)

/-- The atomic system is as the section under way began, but for steps that are put off. -/
structure Matches (C : Code τ D P Q ι ω) (ok : Demands τ D P ω) (c : Fine L D P Q ι) (s : State τ D P) :
    Prop where
  inside : ∀ t b, c.spot t = .inside b → ∃ b₀, C.enter t (s.place t) = some b₀ ∧ b₀.Runs s.data b c.data
  data : c.Quiet → c.data = s.data
  place : ∀ u p, (c.spot u).place = some p →
    s.place u = p ∨ ∃ t b, c.spot t = .inside b ∧ PutOff C ok c.data b u (s.place u) p

/-- While nobody is in a section, the two systems are the same. -/
theorem Matches.quiet {c : Fine L D P Q ι} {s : State τ D P} (h : Matches C ok c s) (hq : c.Quiet) :
    c.data = s.data ∧ ∀ u, (c.spot u).place = some (s.place u) := by
  refine ⟨h.data hq, fun u => ?_⟩
  cases hs : (c.spot u).place with
  | none =>
    cases hc : c.spot u with
    | inside b => exact absurd hc (hq u b)
    | _ => rw [hc] at hs; cases hs
  | some p =>
    rcases h.place u p hs with he | ⟨t, b, hin, -⟩
    · rw [he]
    · exact absurd hin (hq t b)

theorem Coordinated.one {c : Fine L D P Q ι} (h : Coordinated C c) {t u : τ} {b b' : Body D P Q ι}
    (ht : c.spot t = .inside b) (hu : c.spot u = .inside b') : u = t := by
  have hat := h.agrees t
  have hau := h.agrees u
  rw [ht] at hat
  rw [hu] at hau
  exact L.exclusive h.inv hau hat

variable [DecidableEq τ]

/-- The lock moves one party, which goes to a spot that agrees. -/
theorem Coordinated.move {c : Fine L D P Q ι} (h : Coordinated C c) {l : L.State} {t : τ} {x : Spot D P Q ι}
    (hl : L.Inv l) (hx : x.Agrees C t (L.phase l t)) (hother : ∀ u, u ≠ t → L.phase l u = L.phase c.lock u) :
    Coordinated C ({ c with lock := l }.goto t x) where
  inv := hl
  agrees u := by
    by_cases hu : u = t
    · subst u
      simpa [Fine.goto] using hx
    · simpa [Fine.goto, hu, hother u hu] using h.agrees u

/-- A party goes to a spot that agrees with the lock as it is. -/
theorem Coordinated.goto {c : Fine L D P Q ι} (h : Coordinated C c) {t : τ} {x : Spot D P Q ι} (d : D)
    (hx : x.Agrees C t (L.phase c.lock t)) : Coordinated C ({ c with data := d }.goto t x) :=
  ⟨h.inv, (h.move h.inv hx fun _ _ => rfl).agrees⟩

/-- A step of the lock itself. -/
theorem Coordinated.within {c : Fine L D P Q ι} (h : Coordinated C c) {a : L.Action} {l : L.State}
    (ha : L.step c.lock a = some l) : Coordinated C { c with lock := l } := by
  obtain ⟨hl, hgoes, hother⟩ := L.step_spec h.inv ha
  refine ⟨hl, fun u => ?_⟩
  by_cases hu : u = L.mover a
  · subst u
    exact (h.agrees _).goes hgoes
  · rw [hother u hu]
    exact h.agrees u

/-- A party that is in no section, and in none afterwards, goes to another spot of the same place. -/
theorem Matches.shift {c : Fine L D P Q ι} {s : State τ D P} (h : Matches C ok c s) {t : τ} {x : Spot D P Q ι}
    (l : L.State) (hplace : x.place = (c.spot t).place) (hp : x.place.isSome) :
    Matches C ok ({ c with lock := l }.goto t x) s := by
  have hold : ∀ b, c.spot t ≠ .inside b := fun b hb => by
    rw [hplace, hb] at hp
    cases hp
  have hnew : ∀ b, x ≠ .inside b := fun b hb => by
    rw [hb] at hp
    cases hp
  have hin : ∀ u b, ({ c with lock := l }.goto t x).spot u = .inside b ↔ c.spot u = .inside b := by
    intro u b
    by_cases hu : u = t
    · subst u
      simp [Fine.goto, hold b, hnew b]
    · simp [Fine.goto, hu]
  refine ⟨fun u b hu => h.inside u b ((hin u b).mp hu), fun hq => h.data fun u b hu => hq u b ((hin u b).mpr hu),
    fun u p hu => ?_⟩
  have hu : (c.spot u).place = some p := by
    by_cases he : u = t
    · subst u
      rw [← hplace]
      simpa [Fine.goto] using hu
    · simpa [Fine.goto, he] using hu
  rcases h.place u p hu with he | ⟨v, b, hv, hput⟩
  · exact .inl he
  · exact .inr ⟨v, b, (hin v b).mpr hv, hput⟩

variable [Fintype τ]

/-- A wake does the same to spots that sleep where the places do. -/
theorem wake_places {S S' : Type} {asleep : Q → S → Bool} {resume : Q → S → S} {asleep' : Q → S' → Bool}
    (resume' : Q → S' → S') {f : τ → S} {g : τ → S'} {w : Wake Q} {woken : Option τ} {f' : τ → S}
    (hsame : ∀ q u, asleep q (f u) = asleep' q (g u)) (h : wake asleep resume w woken f = some f') :
    ∃ g', wake asleep' resume' w woken g = some g' ∧
      ∀ u, f' u = f u ∧ g' u = g u ∨ ∃ q, asleep q (f u) = true ∧ f' u = resume q (f u) ∧ g' u = resume' q (g u) := by
  cases w with
  | nobody =>
    cases h
    exact ⟨g, rfl, fun u => .inl ⟨rfl, rfl⟩⟩
  | one q =>
    cases woken with
    | none =>
      simp only [wake, wakeOne, Option.ite_none_right_eq_some, Option.some.injEq] at h ⊢
      obtain ⟨hno, rfl⟩ := h
      exact ⟨g, ⟨fun u => by rw [← hsame]; exact hno u, rfl⟩, fun u => .inl ⟨rfl, rfl⟩⟩
    | some v =>
      simp only [wake, wakeOne, Option.ite_none_right_eq_some, Option.some.injEq] at h ⊢
      obtain ⟨hv, rfl⟩ := h
      refine ⟨_, ⟨by rw [← hsame]; exact hv, rfl⟩, fun u => ?_⟩
      by_cases hu : u = v
      · subst u
        exact .inr ⟨q, hv, by simp, by simp⟩
      · exact .inl ⟨by simp [hu], by simp [hu]⟩
  | all q =>
    cases h
    refine ⟨_, rfl, fun u => ?_⟩
    by_cases hu : asleep q (f u) = true
    · exact .inr ⟨q, hu, by simp [wakeAll, hu], by simp [wakeAll, ← hsame, hu]⟩
    · exact .inl ⟨by simp [wakeAll, hu], by simp [wakeAll, ← hsame, hu]⟩

/-- Steps that were put off are made one after the other, when the section is over. -/
theorem catch_up {d : D} {place place' : τ → P} (h : Reaches init (step C) (Admitted C ok) ⟨d, place⟩)
    (hput : ∀ u, place' u = place u ∨ ∃ o, ok.outer d u (place u) o ∧ C.outer d u (place u) o = some (d, place' u)) :
    Reaches init (step C) (Admitted C ok) ⟨d, place'⟩ := by
  have hsome : ∀ S : Finset τ,
      Reaches init (step C) (Admitted C ok) ⟨d, fun u => if u ∈ S then place' u else place u⟩ := by
    intro S
    induction S using Finset.induction_on with
    | empty => simpa using h
    | insert t S ht ih =>
      have hplace : (fun u => if u ∈ insert t S then place' u else place u) =
          Function.update (fun u => if u ∈ S then place' u else place u) t (place' t) := by
        funext u
        by_cases hu : u = t
        · subst u; simp
        · simp [hu]
      rw [hplace]
      rcases hput t with he | ⟨o, hok, hstep⟩
      · rw [he]
        have hself : (fun u => if u ∈ S then place' u else place u) t = place t := if_neg ht
        rw [← hself, Function.update_eq_self]
        exact ih
      · refine ih.next (a := .outer t o) ?_ ?_
        · simpa [Admitted, ht] using hok
        · simp [step, ht, hstep]
  simpa using hsome Finset.univ

/-- A fine state with an atomic one that it is matched by, both reached. -/
structure Tracks (C : Code τ D P Q ι ω) (ok : Demands τ D P ω) (init : State τ D P → Prop) (c : Fine L D P Q ι)
    (s : State τ D P) : Prop where
  coordinated : Coordinated C c
  matched : Matches C ok c s
  reached : Reaches init (step C) (Admitted C ok) s

/-- The section that is under way makes an instruction. -/
theorem Tracks.instr {c : Fine L D P Q ι} {s : State τ D P} (h : Tracks C ok init c s) {t : τ} {b b' : Body D P Q ι}
    {d' : D} (ht : c.spot t = .inside b) (hruns : ∀ b₀ : Body D P Q ι, b₀.Runs s.data b c.data → b₀.Runs s.data b' d')
    (hends : ∀ r, b'.Ends d' r → b.Ends c.data r) :
    Tracks C ok init ({ c with data := d' }.goto t (.inside b')) s := by
  have hagrees := h.coordinated.agrees t
  rw [ht] at hagrees
  refine ⟨h.coordinated.goto d' hagrees, ⟨fun u x hu => ?_, fun hq => ?_, fun u p hu => ?_⟩, h.reached⟩
  · by_cases he : u = t
    · subst u
      obtain rfl : b' = x := by simpa [Fine.goto] using hu
      obtain ⟨b₀, hb₀, hb⟩ := h.matched.inside t b ht
      exact ⟨b₀, hb₀, hruns b₀ hb⟩
    · exact absurd (h.coordinated.one ht (by simpa [Fine.goto, he] using hu)) he
  · exact absurd (Function.update_self t _ c.spot) (hq t b')
  · have he : u ≠ t := by
      rintro rfl
      simp [Fine.goto, Spot.place] at hu
    rcases h.matched.place u p (by simpa [Fine.goto, he] using hu) with hp | ⟨v, y, hv, hput⟩
    · exact .inl hp
    · obtain rfl := h.coordinated.one ht hv
      obtain rfl : b = y := by simpa [ht] using hv
      obtain ⟨hw, ha, hpend, o, ho⟩ := hput
      exact .inr ⟨v, b', Function.update_self .., hw, ha, hpend, o, fun r hr => ho r (hends r hr)⟩

/-- The lock is got, and the section begins with the data as they are. -/
theorem Tracks.enter {c : Fine L D P Q ι} {s : State τ D P} (h : Tracks C ok init c s) {t : τ} {p : P}
    {b : Body D P Q ι} (ht : c.spot t = .locking p) (hheld : L.phase c.lock t = .held) (hb : C.enter t p = some b) :
    Tracks C ok init (c.goto t (.inside b)) s := by
  have hquiet : c.Quiet := by
    intro u x hu
    have hag := h.coordinated.agrees u
    rw [hu] at hag
    obtain rfl := L.exclusive h.coordinated.inv hheld hag
    rw [ht] at hu
    cases hu
  obtain ⟨hdata, hplace⟩ := h.matched.quiet hquiet
  have hin : ∀ u x, (c.goto t (.inside b)).spot u = .inside x → u = t ∧ b = x := by
    intro u x hu
    by_cases he : u = t
    · subst u
      exact ⟨rfl, by simpa [Fine.goto] using hu⟩
    · exact absurd (by simpa [Fine.goto, he] using hu) (hquiet u x)
  refine ⟨h.coordinated.goto c.data hheld, ⟨fun u x hu => ?_, fun _ => hdata, fun u q hu => .inl ?_⟩, h.reached⟩
  · obtain ⟨rfl, rfl⟩ := hin u x hu
    have hp := hplace u
    rw [ht] at hp
    obtain rfl : p = s.place u := Option.some.inj hp
    exact ⟨b, hb, by rw [← hdata]; exact .start⟩
  · have he : u ≠ t := by
      rintro rfl
      simp [Fine.goto, Spot.place] at hu
    rw [show (c.goto t (.inside b)).spot u = c.spot u from Function.update_of_ne he _ _, hplace u] at hu
    exact Option.some.inj hu

/-- A step outside, made by `u` at place `p`. -/
theorem Tracks.outer (hsteady : Steady C ok init) {c : Fine L D P Q ι} {s : State τ D P} (h : Tracks C ok init c s)
    {u : τ} {p : P} {o : ω} {r : D × P} (hu : c.spot u = .out p) (hok : ok.outer c.data u p o)
    (hstep : C.outer c.data u p o = some r) :
    ∃ s', Tracks C ok init ({ c with data := r.1 }.goto u (.out r.2)) s' := by
  have hplace : (c.spot u).place = some p := by rw [hu]; rfl
  -- a party that has a step put off is pending, and makes none
  have hp : s.place u = p := by
    rcases h.matched.place u p hplace with he | ⟨_, _, -, -, -, hpend, -⟩
    · exact he
    · rw [hpend.1 c.data o] at hstep
      cases hstep
  subst hp
  have hagrees := h.coordinated.agrees u
  rw [hu] at hagrees
  have hcoord : Coordinated C ({ c with data := r.1 }.goto u (.out r.2)) := h.coordinated.goto r.1 hagrees
  have hin : ∀ t b, ({ c with data := r.1 }.goto u (.out r.2)).spot t = .inside b → t ≠ u ∧ c.spot t = .inside b := by
    intro t b ht
    by_cases he : t = u
    · subst t
      simp [Fine.goto] at ht
    · exact ⟨he, by simpa [Fine.goto, he] using ht⟩
  by_cases hq : c.Quiet
  · refine ⟨⟨r.1, Function.update s.place u r.2⟩, hcoord, ⟨fun t b ht => ?_, fun _ => rfl, fun v q hv => ?_⟩,
      h.reached.next (a := .outer u o) ?_ ?_⟩
    · exact absurd (hin t b ht).2 (hq t b)
    · by_cases he : v = u
      · subst v
        exact .inl (by simpa [Fine.goto, Spot.place] using hv)
      · have hsame := (h.matched.quiet hq).2 v
        simp only [Fine.goto, Function.update_of_ne he] at hv ⊢
        exact .inl (Option.some.inj (hsame.symm.trans hv))
    · rw [(h.matched.quiet hq).1] at hok
      exact hok
    · rw [(h.matched.quiet hq).1] at hstep
      simp [step, hstep]
  · obtain ⟨t, b, ht⟩ : ∃ t b, c.spot t = .inside b := by
      simpa [Fine.Quiet] using hq
    obtain ⟨b₀, hb₀, hruns⟩ := h.matched.inside t b ht
    have hut : u ≠ t := by
      rintro rfl
      rw [ht] at hu
      cases hu
    have hkeep : ({ c with data := r.1 }.goto u (.out r.2)).spot t = .inside b := by
      simpa [Fine.goto, hut.symm] using ht
    -- what others have put off stays put off
    have hput : ∀ v q, v ≠ u → (c.spot v).place = some q → s.place v = q ∨ ∃ t' b',
        ({ c with data := r.1 }.goto u (.out r.2)).spot t' = .inside b' ∧ PutOff C ok r.1 b' v (s.place v) q := by
      intro v q hv hvq
      rcases h.matched.place v q hvq with he | ⟨t', b', ht', hp⟩
      · exact .inl he
      · obtain rfl := h.coordinated.one ht ht'
        obtain rfl : b = b' := by simpa [ht] using ht'
        refine .inr ⟨t', b, hkeep, ?_⟩
        rcases hsteady.keeps hstep with he | hno
        · rwa [he]
        · have hw := hp.1
          rw [hno] at hw
          cases hw
    rcases hsteady.outside h.reached hb₀ hruns hut hok hstep with ⟨d', hok', hstep', hruns'⟩ | ⟨hd, hoff⟩
    · refine ⟨⟨d', Function.update s.place u r.2⟩, hcoord, ⟨fun t' b' ht' => ?_, fun hq' => ?_, fun v q hv => ?_⟩,
        h.reached.next (a := .outer u o) hok' ?_⟩
      · obtain ⟨hne, ht'⟩ := hin t' b' ht'
        obtain rfl := h.coordinated.one ht ht'
        obtain rfl : b = b' := by simpa [ht] using ht'
        exact ⟨b₀, by simpa [hne] using hb₀, hruns'⟩
      · exact absurd hkeep (hq' t b)
      · by_cases he : v = u
        · subst v
          exact .inl (by simpa [Fine.goto, Spot.place] using hv)
        · have hsame := hput v q he (by simpa [Fine.goto, he] using hv)
          rwa [← Function.update_of_ne he r.2 s.place] at hsame
      · simp [step, hstep']
    · refine ⟨s, hcoord, ⟨fun t' b' ht' => ?_, fun hq' => ?_, fun v q hv => ?_⟩, h.reached⟩
      · obtain ⟨-, ht'⟩ := hin t' b' ht'
        have hsame := h.matched.inside t' b' ht'
        rwa [← hd] at hsame
      · exact absurd hkeep (hq' t b)
      · by_cases he : v = u
        · subst v
          obtain rfl : r.2 = q := by simpa [Fine.goto, Spot.place] using hv
          exact .inr ⟨t, b, hkeep, hd ▸ hoff⟩
        · exact hput v q he (by simpa [Fine.goto, he] using hv)

/-- What a wake does to a spot. -/
theorem wake_spot {asleep : Q → P → Bool} (resume : Q → P → P) {q : Q} {x : Spot D P Q ι}
    (h : x.asleep asleep q = true) : ∃ p, x = .out p ∧ asleep q p = true ∧ x.resume resume q = .out (resume q p) := by
  cases x with
  | out p => exact ⟨p, rfl, h, rfl⟩
  | _ => cases h

/-- The section is over: the atomic system makes all of it, and then the steps that were put off. -/
theorem Tracks.leave (hsteady : Steady C ok init) {c : Fine L D P Q ι} {s : State τ D P} (h : Tracks C ok init c s)
    {t : τ} {w : Wake Q} {p : P} {l : L.State} {woken : Option τ} {spot : τ → Spot D P Q ι}
    (ht : c.spot t = .inside (.done w p)) (hok : ok.leave c.data) (hl : L.unlock c.lock t = some l)
    (hwake : wake (Spot.asleep C.asleep) (Spot.resume C.resume) w woken (c.goto t (.unlocking p)).spot = some spot) :
    ∃ s', Tracks C ok init { c with lock := l, spot := spot } s' := by
  have hagrees := h.coordinated.agrees t
  rw [ht] at hagrees
  obtain ⟨hinv, hreleasing, hother⟩ := L.unlock_spec h.coordinated.inv hagrees hl
  obtain ⟨b₀, hb₀, hruns⟩ := h.matched.inside t _ ht
  have hends : b₀.Ends s.data (c.data, w, p) := hruns.ends (ends_done.mpr rfl)
  have hawake : ∀ q, C.asleep q p = false := hsteady.exit_awake hb₀ hends
  have hspot : ∀ u, u ≠ t → (c.goto t (.unlocking p)).spot u = c.spot u := fun u hu => Function.update_of_ne hu _ _
  have hself : (c.goto t (.unlocking p)).spot t = .unlocking p := Function.update_self ..
  have hnot : ∀ u b, u ≠ t → c.spot u ≠ .inside b := fun u b hu hb => hu (h.coordinated.one ht hb)
  -- where each of the others is, and what it has put off
  have hat : ∀ u q, u ≠ t → (c.spot u).place = some q →
      s.place u = q ∨ PutOff C ok c.data (.done w p) u (s.place u) q := by
    intro u q hu hq
    rcases h.matched.place u q hq with he | ⟨v, b, hv, hput⟩
    · exact .inl he
    · obtain rfl := h.coordinated.one ht hv
      obtain rfl : (.done w p : Body D P Q ι) = b := by simpa [ht] using hv
      exact .inr hput
  have hsame : ∀ q u, (((c.goto t (.unlocking p)).spot u).asleep C.asleep q) =
      C.asleep q (Function.update s.place t p u) := by
    intro q u
    by_cases hu : u = t
    · subst u
      rw [hself, Function.update_self, hawake q]
      rfl
    · rw [hspot u hu, Function.update_of_ne hu]
      have hag := h.coordinated.agrees u
      cases hc : c.spot u with
      | inside b => exact absurd hc (hnot u b hu)
      | out x =>
        rcases hat u x hu (by rw [hc]; rfl) with he | ⟨-, ha, hpend, -⟩
        · rw [he]; rfl
        · rw [ha q]; exact hpend.2 q
      | locking x =>
        rw [hc] at hag
        rcases hat u x hu (by rw [hc]; rfl) with he | ⟨-, ha, -⟩
        · rw [he, hsteady.entry_awake hag.1 q]; rfl
        · rw [ha q]; rfl
      | unlocking x =>
        rw [hc] at hag
        rcases hat u x hu (by rw [hc]; rfl) with he | ⟨-, ha, -⟩
        · rw [he, hag.2 q]; rfl
        · rw [ha q]; rfl
  obtain ⟨place, hplace, hboth⟩ := wake_places C.resume hsame hwake
  have hmade : Reaches init (step C) (Admitted C ok) ⟨c.data, place⟩ := by
    obtain ⟨answers, hexec⟩ := hends
    refine h.reached.next (a := .enter t answers woken) (fun b r hb hr => ?_) ?_
    · obtain rfl := Option.some.inj (hb₀.symm.trans hb)
      obtain rfl := Option.some.inj (hexec.symm.trans hr)
      exact hok
    · simp only [step, hb₀, hexec, Option.bind_some, hplace, Option.map_some]
  -- the spots after the wake, and the places that the atomic system comes to
  have hcases : ∀ u, (∃ q, (spot u).place = some q ∧ (place u = q ∨
      ∃ o, ok.outer c.data u (place u) o ∧ C.outer c.data u (place u) o = some (c.data, q))) ∧
      (u ≠ t → spot u = c.spot u ∨ ∃ q x, c.spot u = .out x ∧ spot u = .out (C.resume q x)) ∧
      (u = t → spot u = .unlocking p) := by
    intro u
    by_cases hu : u = t
    · subst u
      rcases hboth t with ⟨hs, hp⟩ | ⟨q, ha, -, -⟩
      · rw [hself] at hs
        rw [Function.update_self] at hp
        exact ⟨⟨p, by rw [hs]; rfl, .inl hp⟩, fun hn => absurd rfl hn, fun _ => hs⟩
      · rw [hself] at ha
        cases ha
    · rcases hboth u with ⟨hs, hp⟩ | ⟨q, ha, hs, hp⟩
      · rw [hspot u hu] at hs
        rw [Function.update_of_ne hu] at hp
        refine ⟨?_, fun _ => .inl hs, fun he => absurd he hu⟩
        cases hx : (c.spot u).place with
        | none =>
          cases hc : c.spot u with
          | inside b => exact absurd hc (hnot u b hu)
          | _ => rw [hc] at hx; cases hx
        | some x =>
          refine ⟨x, by rw [hs]; exact hx, ?_⟩
          rw [hp]
          rcases hat u x hu hx with he | ⟨-, -, -, o, ho⟩
          · exact .inl he
          · exact .inr ⟨o, ho (c.data, w, p) (ends_done.mpr rfl)⟩
      · rw [hspot u hu] at ha hs
        rw [Function.update_of_ne hu] at hp
        obtain ⟨x, hx, hax, hres⟩ := wake_spot C.resume ha
        refine ⟨⟨C.resume q x, by rw [hs, hres]; rfl, .inl ?_⟩, fun _ => .inr ⟨q, x, hx, hs.trans hres⟩,
          fun he => absurd he hu⟩
        rcases hat u x hu (by rw [hx]; rfl) with he | ⟨-, -, hpend, -⟩
        · rw [hp, he]
        · rw [hpend.2 q] at hax
          cases hax
  choose place' hplace' hput using fun u => (hcases u).1
  have hquiet : ∀ u b, spot u ≠ .inside b := by
    intro u b hb
    have he := hplace' u
    rw [hb] at he
    cases he
  refine ⟨⟨c.data, place'⟩, ⟨hinv, fun u => ?_⟩, ⟨fun u b hu => absurd hu (hquiet u b), fun _ => rfl,
    fun u q hu => .inl (Option.some.inj ((hplace' u).symm.trans hu))⟩, catch_up hmade fun u => ?_⟩
  · change (spot u).Agrees C u (L.phase l u)
    by_cases hu : u = t
    · subst u
      rw [(hcases t).2.2 rfl, hreleasing]
      exact ⟨.inl rfl, hawake⟩
    · rw [hother u hu]
      have hag := h.coordinated.agrees u
      rcases (hcases u).2.1 hu with he | ⟨q, x, hx, he⟩
      · rw [he]
        exact hag
      · rw [hx] at hag
        rw [he]
        exact hag
  · rcases hput u with he | hstep
    · exact .inl he.symm
    · exact .inr hstep

/-- One step of the single ones is matched by any number of atomic ones. -/
theorem Tracks.step (hsteady : Steady C ok init) {c c' : Fine L D P Q ι} {s : State τ D P} (h : Tracks C ok init c s)
    {a : FineAction L ι ω} (hok : FineAdmitted ok c a) (hstep : fineStep C c a = some c') :
    ∃ s', Tracks C ok init c' s' := by
  cases a with
  | outer t o =>
    simp only [fineStep] at hstep
    split at hstep
    · rename_i p ht
      obtain ⟨r, hr, rfl⟩ := Option.map_eq_some_iff.mp hstep
      exact h.outer hsteady ht (hok p ht) hr
    · cases hstep
  | lock t =>
    simp only [fineStep] at hstep
    split at hstep
    · rename_i p ht
      rw [Option.ite_none_right_eq_some] at hstep
      obtain ⟨hp, hstep⟩ := hstep
      obtain ⟨l, hl, rfl⟩ := Option.map_eq_some_iff.mp hstep
      have hag := h.coordinated.agrees t
      rw [ht] at hag
      obtain ⟨hinv, hacq, hother⟩ := L.lock_spec h.coordinated.inv hag hl
      exact ⟨s, h.coordinated.move hinv ⟨hp, .inl hacq⟩ hother, h.matched.shift l (by rw [ht]; rfl) rfl, h.reached⟩
    · cases hstep
  | within a =>
    obtain ⟨l, hl, rfl⟩ := Option.map_eq_some_iff.mp hstep
    exact ⟨s, h.coordinated.within hl, ⟨h.matched.inside, h.matched.data, h.matched.place⟩, h.reached⟩
  | enter t =>
    simp only [fineStep] at hstep
    split at hstep
    · rename_i p ht
      rw [Option.ite_none_right_eq_some] at hstep
      obtain ⟨hheld, hstep⟩ := hstep
      obtain ⟨b, hb, rfl⟩ := Option.map_eq_some_iff.mp hstep
      exact ⟨s, h.enter ht hheld hb⟩
    · cases hstep
  | instr t =>
    simp only [fineStep] at hstep
    split at hstep
    · rename_i effect rest ht
      cases hstep
      exact ⟨s, h.instr ht (fun _ hr => hr.instr) fun r hr => hr⟩
    · cases hstep
  | ask t i =>
    simp only [fineStep] at hstep
    split at hstep
    · rename_i rest ht
      cases hstep
      exact ⟨s, h.instr ht (fun _ hr => hr.ask i) fun r hr => ends_ask.mpr ⟨i, hr⟩⟩
    · cases hstep
  | leave t woken =>
    simp only [fineStep] at hstep
    split at hstep
    · rename_i w p ht
      obtain ⟨l, hl, hstep⟩ := Option.bind_eq_some_iff.mp hstep
      obtain ⟨spot, hspot, rfl⟩ := Option.map_eq_some_iff.mp hstep
      exact h.leave hsteady ht hok hl hspot
    · cases hstep
  | finish t =>
    simp only [fineStep] at hstep
    split at hstep
    · rename_i p ht
      rw [Option.ite_none_right_eq_some, Option.some.injEq] at hstep
      obtain ⟨hfree, rfl⟩ := hstep
      exact ⟨s, h.coordinated.goto c.data hfree, h.matched.shift c.lock (by rw [ht]; rfl) rfl, h.reached⟩
    · cases hstep

/-- Every state that single steps reach is matched by one that whole sections reach. -/
theorem reaches_atomic (hsteady : Steady C ok init) {c : Fine L D P Q ι}
    (h : Reaches (FineInitial init) (fineStep C) (FineAdmitted ok) c) : ∃ s, Tracks C ok init c s := by
  induction h with
  | start h =>
    obtain ⟨s, hs, rfl⟩ := h
    refine ⟨s, ⟨L.inv_start, L.free_start⟩, ⟨fun t b ht => ?_, fun _ => rfl, fun u p hu => ?_⟩, .start hs⟩
    · cases ht
    · exact .inl (Option.some.inj hu)
  | next _ hok hstep ih =>
    obtain ⟨s, hs⟩ := ih
    exact hs.step hsteady hok hstep

/-- The data are those of the sections: steps outside do not touch them or depend on them, nobody
waits for them and nobody sleeps. -/
structure Private (C : Code τ D P Q ι ω) (ok : Demands τ D P ω) : Prop where
  keeps : ∀ {d t p o r}, C.outer d t p o = some r → r.1 = d
  blind : ∀ {d t p o r} d', C.outer d t p o = some r → C.outer d' t p o = some (d', r.2)
  demand : ∀ {d t p o} d', ok.outer d t p o → ok.outer d' t p o
  stays : ∀ p, C.waits p = false
  awake : ∀ q p, C.asleep q p = false

/-- A step outside can be made before any section that is under way. -/
theorem Private.steady (h : Private C ok) : Steady C ok init where
  entry_awake _ q := h.awake q _
  exit_awake _ _ q := h.awake q _
  keeps hr := .inl (h.keeps hr)
  outside {s _ _ _ _ _ _ _} _ _ hruns _ hok hr :=
    .inl ⟨s.data, h.demand s.data hok, h.blind s.data hr, h.keeps hr ▸ hruns⟩

/-- Under a lock of the library, sections with data of their own are made as if each were one step: the
atomic system has the data and the places of all parties, but for the section under way. -/
theorem Private.reaches_atomic (h : Private C ok) {c : Fine L D P Q ι}
    (hr : Reaches (FineInitial init) (fineStep C) (FineAdmitted ok) c) :
    ∃ s, Reaches init (step C) (Admitted C ok) s ∧ (c.Quiet → c.data = s.data) ∧
      (∀ u p, (c.spot u).place = some p → s.place u = p) ∧
      ∀ t b, c.spot t = .inside b → ∃ b₀, C.enter t (s.place t) = some b₀ ∧ b₀.Runs s.data b c.data := by
  obtain ⟨s, hs⟩ := CriticalSections.reaches_atomic h.steady hr
  refine ⟨s, hs.reached, hs.matched.data, fun u p hp => ?_, hs.matched.inside⟩
  rcases hs.matched.place u p hp with he | ⟨-, -, -, hwaits, -⟩
  · exact he
  · rw [h.stays] at hwaits
    cases hwaits

end CriticalSections
