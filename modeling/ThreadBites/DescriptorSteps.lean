import ThreadBites.DescriptorLives
import ThreadBites.RunConditions

/-!
# A thread and its own descriptor

A thread that starts, runs, exits or ends keeps the invariant, as does a waiter
that reads the word of the thread that it waits for.
-/
namespace ThreadBites.Threads

open Transition WaitQueue

variable {τ δ : Type} {main : τ} {s : State τ δ}

/-- A thread that lives, other than the initial one, used its descriptor last. -/
theorem Inv.last_self (h : Inv main s) {u : τ} (hu : u ≠ main) (hb : s.phase u ≠ .unborn) (hd : s.phase u ≠ .dead) :
    s.last (s.self u) = some u := by
  have ht := h.thread u
  cases hp : s.phase u with
  | unborn => exact absurd hp hb
  | dead => exact absurd hp hd
  | leaving => exact ht.leaving hu hp
  | _ => exact (h.desc _).lent u (ht.active hu (by rw [hp]; rfl))

/-- The word of a descriptor that a thread waits for. -/
theorem Inv.word_of_lien (h : Inv main s) {t u : τ} {d : δ} {w : Waiter τ} (hl : Lien s.toShared t d w)
    (hu : s.last d = some u) :
    (s.phase u = .dead ∧ (s.mem d).tid = 0) ∨
      (s.phase u ≠ .dead ∧ (s.mem d).tid = s.id u ∧ (s.mem d).tid ≠ 0) := by
  have hd := h.desc d
  obtain ⟨hself, hmain, hborn, hid⟩ := hd.created u hu
  have hword := hd.word u hu
  have hstored : s.phase u = .born → (s.record u).stored = true := by
    intro hp
    have hrole := (h.thread u).active hmain (by rw [hp]; rfl)
    rw [hself] at hrole
    cases w with
    | reuse attr => rw [hl.1] at hrole; cases hrole
    | failed v =>
      rw [hl.1] at hrole; cases hrole
      exact hl.2.2.2
    | join o =>
      obtain ⟨v, rfl, hr, hheir⟩ := hl
      rw [hr] at hrole; cases hrole
      exact ((hd.status u hr).heir (by rw [hheir]; simp)).2 hp
  cases hp : s.phase u with
  | unborn => exact absurd hp hborn
  | dead =>
    rw [hp] at hword
    exact .inl ⟨rfl, hword⟩
  | born =>
    rw [hp] at hword
    have ht := hword.2 (hstored hp)
    exact .inr ⟨by simp, ht, ht ▸ hid⟩
  | _ =>
    rw [hp] at hword
    exact .inr ⟨by simp, hword, hword ▸ hid⟩

/-- Only a descriptor that nobody used can be waited for with no thread, and its word is 0. -/
theorem Lien.word_of_none {s : Shared τ δ} {t : τ} {d : δ} {w : Waiter τ} (hlent : ∀ u, s.role d = .lent u → s.last d = some u)
    (hl : Lien s t d w) (hn : s.last d = none) : (s.mem d).tid = 0 := by
  cases w with
  | reuse attr => exact hl.2 hn
  | failed u => rw [hlent u hl.1] at hn; cases hn
  | join o =>
    obtain ⟨u, -, hr, -⟩ := hl
    rw [hlent u hr] at hn; cases hn

theorem Writes.refl (s : Shared τ δ) (d : δ) (u : τ) : Writes s s d u where
  mem _ _ := rfl
  record _ _ := rfl
  exiting _ _ := rfl
  maker := rfl
  releases := rfl
  role := rfl
  last := rfl
  used := rfl
  free := rfl
  heap := rfl
  self := rfl
  id := rfl
  values := rfl

theorem Writes.setMem [DecidableEq δ] {s s' : Shared τ δ} {d : δ} {u : τ} (h : Writes s s' d u) {v : Desc δ} :
    Writes s (s'.setMem d v) d u :=
  { h with mem := fun e he => (Function.update_of_ne he _ _).trans (h.mem e he) }

/-- A note in the record of `u` that leaves its maker and its releases. -/
theorem Writes.note [DecidableEq τ] {s s' : Shared τ δ} {d : δ} {u : τ} (h : Writes s s' d u)
    {f : Record τ → Record τ} (hmaker : ∀ r, (f r).maker = r.maker)
    (hreleases : ∀ r, (f r).releases = r.releases) : Writes s (s'.note u f) d u :=
  have hrecord : (s'.note u f).record u = f (s'.record u) := Function.update_self ..
  { h with
    record := fun w hw => (Function.update_of_ne hw _ _).trans (h.record w hw)
    maker := by rw [hrecord, hmaker, h.maker]
    releases := by rw [hrecord, hreleases, h.releases] }

/-- A thread that comes to the user's function, or ends without it, was not given up or was. -/
theorem Status.go {v : Desc δ} {r : Record τ} {x : Bool} {q : Phase} (h : Status v r x .starting)
    (hq : q = .running ∧ v.startStatus ≠ .exit ∨ q = .leaving ∧ v.startStatus = .exit) : Status v r x q where
  detached := h.detached
  kept hd := .inl ((h.kept hd).resolve_right nofun)
  joined := h.joined
  heir hh := ⟨(h.heir hh).1, fun hb => by rcases hq with ⟨hq, -⟩ | ⟨hq, -⟩ <;> rw [hq] at hb <;> cases hb⟩
  releasing hr := by rcases hq with ⟨hq, -⟩ | ⟨hq, -⟩ <;> rw [hq] at hr <;> cases hr
  gone ho := by
    rcases hq with ⟨hq, -⟩ | ⟨-, he⟩
    · rw [hq] at ho; cases ho
    · exact .inr (h.failed.mpr he)
  passed := h.passed
  failed := h.failed
  failing hf := by
    rcases hq with ⟨-, hne⟩ | ⟨hq, -⟩
    · exact absurd (h.failed.mp hf) hne
    · exact ⟨.inr (by rw [hq]; rfl), (h.failing hf).2⟩
  returned := h.returned

theorem Status.start {v : Desc δ} {r : Record τ} {x : Bool} {k : BitVec 32} (h : Status v r x .born) :
    Status { v with tid := k } r x .starting where
  detached := h.detached
  kept hd := .inl ((h.kept hd).resolve_right nofun)
  joined := h.joined
  heir hh := ⟨(h.heir hh).1, nofun⟩
  releasing := nofun
  gone := nofun
  passed := h.passed
  failed := h.failed
  failing hf := ⟨.inl rfl, (h.failing hf).2⟩
  returned := h.returned

/-- A thread that runs was not given up. -/
theorem Status.not_failed {v : Desc δ} {r : Record τ} {x : Bool} (h : Status v r x .running) : r.failed = false := by
  by_contra hf
  have := (h.failing (by simpa using hf)).1
  simp [Phase.early, Phase.gone] at this

theorem Status.exit {v : Desc δ} {r : Record τ} {x : Bool} (h : Status v r x .running) (retval : BitVec 64) :
    Status { v with retval := retval } { r with passed := some retval } true .running where
  detached := h.detached
  kept := h.kept
  joined := h.joined
  heir := h.heir
  releasing := nofun
  gone := nofun
  passed _ := rfl
  failed := h.failed
  failing hf := absurd (h.not_failed.symm.trans hf) Bool.false_ne_true
  returned := h.returned

/-- The section of `tbthread_exit`: only a thread that is detached goes on to release its descriptor. -/
theorem Status.exitSection {v : Desc δ} {r : Record τ} {q : Phase} (h : Status v r true .running)
    (hq : v.joinStatus = .detached ∧ q = .releasing ∨ v.joinStatus ≠ .detached ∧ q = .leaving) :
    Status { v with joinStatus := .joinableFixed } r true q where
  detached := nofun
  kept hd := by
    rcases hq with ⟨-, hq⟩ | ⟨hne, -⟩
    · exact .inr hq
    · exact absurd ((h.kept hd).resolve_right nofun) hne
  joined hj := ⟨rfl, (h.joined hj).2⟩
  heir hh := ⟨(h.heir hh).1, fun hb => by rcases hq with ⟨-, hq⟩ | ⟨-, hq⟩ <;> rw [hq] at hb <;> cases hb⟩
  releasing hr := by
    rcases hq with ⟨hd, -⟩ | ⟨-, hq⟩
    · exact h.detached hd
    · rw [hq] at hr; cases hr
  gone _ := .inl rfl
  passed := h.passed
  failed := h.failed
  failing hf := absurd (h.not_failed.symm.trans hf) Bool.false_ne_true
  returned := h.returned

variable [DecidableEq τ]

/-- A thread goes on in its own descriptor, and lives. -/
theorem Inv.own (h : Inv main s) {sh : Shared τ δ} {t : τ} {p : Pc τ δ} (hw : Writes s.toShared sh (s.self t) t)
    (ha : (s.phase t).active = true) (hp : p.phase.active = true ∨ p.phase = .leaving)
    (hrecord : ∃ passed, sh.record t = { s.record t with passed := passed })
    (hjoiner : (sh.mem (s.self t)).joiner = (s.mem (s.self t)).joiner)
    (hearly : p.phase.early = true → sh.exiting t = false)
    (hword : Word (s.mem (s.self t)).tid (s.id t) (s.record t).stored (s.phase t) →
      Word (sh.mem (s.self t)).tid (s.id t) (s.record t).stored p.phase)
    (hstatus : Status (s.mem (s.self t)) (s.record t) (s.exiting t) (s.phase t) →
      Status (sh.mem (s.self t)) (sh.record t) (sh.exiting t) p.phase)
    (hplaced : Placed sh (Function.update s.phase t p.phase) t p) : Inv main (s.move sh t p) := by
  obtain ⟨passed, hrecord⟩ := hrecord
  have hne : s.phase t ≠ .unborn ∧ s.phase t ≠ .dead := by
    constructor <;> intro hn <;> rw [hn] at ha <;> cases ha
  have hne' : p.phase ≠ .unborn ∧ p.phase ≠ .dead := by
    constructor <;> intro hn <;> rw [hn] at hp <;> rcases hp with hp | hp <;> cases hp
  have hlives : Lives s.phase (Function.update s.phase t p.phase) := by
    intro w
    by_cases hwt : w = t
    · subst w; simp [hne, hne']
    · simp [hwt]
  have hrole : t ≠ main → s.role (s.self t) = .lent t := fun ht => (h.thread t).active ht ha
  have hlast : ∀ w, s.last (s.self t) = some w → w = t ∧ t ≠ main := by
    intro w hw
    by_cases ht : t = main
    · rw [ht, (h.desc _).unused h.initial.role] at hw
      cases hw
    · rw [(h.desc _).lent t (hrole ht)] at hw
      exact ⟨(Option.some.inj hw).symm, ht⟩
  have hd := h.desc (s.self t)
  have hthread := h.thread t
  refine h.write hw (phase_move s sh t p) hlives (fun w hwt => by simp [hwt]) (fun e he => ?_) ?_ ?_ hplaced ?_
    fun hdead => absurd hdead hne.2
  · exact ((h.desc e).created t he).1.symm
  · refine hd.write hw hlives ?_ ?_ ?_ ?_ ?_
    · intro w hu
      rw [(hlast w hu).1, hrecord, Function.update_self]
      exact hword ((hlast w hu).1 ▸ hd.word w hu)
    · intro hf _
      by_cases ht : t = main
      · rw [ht, h.initial.role] at hf; cases hf
      · rw [hrole ht] at hf; cases hf
    · intro w hb
      by_cases ht : t = main
      · rw [ht, h.initial.role] at hb; cases hb
      · rw [hrole ht] at hb; cases hb
    · intro w hu hdet
      rw [hjoiner]
      obtain ⟨rfl, -⟩ := hlast w hu
      rw [hrecord] at hdet
      exact hd.unjoined w hu hdet
    · intro w hr
      obtain ⟨rfl, -⟩ := hlast w (hd.lent w hr)
      rw [Function.update_self]
      exact hstatus (hd.status w hr)
  · exact {
      made := fun w hm => by
        rw [hw.maker] at hm
        exact ⟨(hthread.made w hm).1, by simpa using hne'.1⟩
      active := fun ht _ => by rw [hw.self, hw.role]; exact hrole ht
      leaving := fun ht _ => by rw [hw.self, hw.last]; exact hd.lent t (hrole ht)
      early := fun he => hearly (by simpa using he)
      releases := fun ht => by rw [hw.releases, hw.self, hw.role]; exact hthread.releases ht }
  · exact {
      tid := fun w _ hh _ => by
        by_cases ht : t = main
        · rw [ht, h.initial.role] at hh; cases hh
        · rw [hrole ht] at hh; cases hh
      made := fun w _ _ => by rw [hrecord]; exact ⟨rfl, rfl, fun hs => hs⟩
      heir := fun w _ hheir => by rw [hrecord]; exact hheir }

/-- `start_thread` after its test of `start_status`. -/
theorem Inv.go (h : Inv main s) {t : τ} {p : Pc τ δ} (hp : s.phase t = .starting)
    (hq : p.phase = .running ∧ (s.mem (s.self t)).startStatus ≠ .exit ∨
      p.phase = .leaving ∧ (s.mem (s.self t)).startStatus = .exit)
    (hplaced : Placed s.toShared (Function.update s.phase t p.phase) t p) : Inv main (s.goto t p) := by
  refine h.own (Writes.refl _ _ _) (by rw [hp]; rfl) ?_ ⟨_, rfl⟩ rfl ?_ ?_ ?_ hplaced
  · rcases hq with ⟨hq, -⟩ | ⟨hq, -⟩
    · rw [hq]; exact .inl rfl
    · exact .inr hq
  · intro he
    rcases hq with ⟨hq, -⟩ | ⟨hq, -⟩ <;> rw [hq] at he <;> cases he
  · intro hw
    rw [hp] at hw
    rcases hq with ⟨hq, -⟩ | ⟨hq, -⟩ <;> rw [hq] <;> exact hw
  · intro hst
    rw [hp] at hst
    exact hst.go hq

variable [DecidableEq δ]

theorem Inv.started (h : Inv main s) {u : τ} (hpc : s.pc u = .born) :
    Inv main (s.move (s.setMem (s.self u) { s.mem (s.self u) with tid := s.id u }) u .checkStart) := by
  have hp : s.phase u = .born := by rw [State.phase, hpc]; rfl
  have hmem : (s.setMem (s.self u) { s.mem (s.self u) with tid := s.id u }).mem (s.self u) =
      { s.mem (s.self u) with tid := s.id u } := by simp [Shared.setMem]
  refine h.own ?_ (by rw [hp]; rfl) (.inl rfl) ⟨_, rfl⟩ (by rw [hmem])
    (fun _ => (h.thread u).early (by rw [hp]; rfl)) ?_ ?_ trivial
  · exact (Writes.refl ..).setMem
  · intro _
    rw [hmem]
    rfl
  · intro hst
    rw [hmem]
    rw [hp] at hst
    exact hst.start

theorem Inv.exit (h : Inv main s) {t : τ} (hpc : s.pc t = .user) (retval : BitVec 64) :
    Inv main (s.move (s.exit t retval) t .user) := by
  have hp : s.phase t = .running := by rw [State.phase, hpc]; rfl
  have hmem : (s.exit t retval).mem (s.self t) = { s.mem (s.self t) with retval := retval } := by simp [Shared.exit]
  have hrecord : (s.exit t retval).record t = { s.record t with passed := some retval } := by simp [Shared.exit]
  refine h.own ?_ (by rw [hp]; rfl) (.inl rfl) ⟨_, hrecord⟩ (by rw [hmem]) (fun he => by cases he) ?_ ?_ trivial
  · exact { Writes.refl s.toShared (s.self t) t with
      mem := fun e he => by simp [Shared.exit, he]
      record := fun w hw => by simp [Shared.exit, hw]
      exiting := fun w hw => by simp [Shared.exit, hw]
      maker := by rw [hrecord]
      releases := by rw [hrecord] }
  · intro hw
    rw [hmem]
    rw [hp] at hw
    exact hw
  · intro hst
    rw [hmem, hrecord, show (s.exit t retval).exiting t = true by simp [Shared.exit]]
    rw [hp] at hst
    exact hst.exit retval

theorem Inv.exitSection (h : Inv main s) {t : τ} (hpc : s.pc t = .user) (he : s.exiting t = true) :
    Inv main (s.move (s.setMem (s.self t) { s.mem (s.self t) with joinStatus := .joinableFixed }) t
      (if (s.mem (s.self t)).joinStatus = .detached then .release (some (s.self t)) .exit else .leaving)) := by
  have hp : s.phase t = .running := by rw [State.phase, hpc]; rfl
  have hmem : (s.setMem (s.self t) { s.mem (s.self t) with joinStatus := .joinableFixed }).mem (s.self t) =
      { s.mem (s.self t) with joinStatus := .joinableFixed } := by simp [Shared.setMem]
  generalize hgo : (if (s.mem (s.self t)).joinStatus = .detached then .release (some (s.self t)) .exit
    else .leaving : Pc τ δ) = p
  have hq : (s.mem (s.self t)).joinStatus = .detached ∧ p.phase = .releasing ∨
      (s.mem (s.self t)).joinStatus ≠ .detached ∧ p.phase = .leaving := by
    split at hgo <;> rename_i hd <;> subst hgo
    · exact .inl ⟨hd, rfl⟩
    · exact .inr ⟨hd, rfl⟩
  have hover : p.phase = .releasing ∨ p.phase = .leaving := hq.imp And.right And.right
  refine h.own ?_ (by rw [hp]; rfl) ?_ ⟨_, rfl⟩ (by rw [hmem]) ?_ ?_ ?_ ?_
  · exact (Writes.refl ..).setMem
  · rcases hover with hq | hq
    · rw [hq]; exact .inl rfl
    · exact .inr hq
  · intro hearly
    rcases hover with hq | hq <;> rw [hq] at hearly <;> cases hearly
  · intro hw
    rw [hmem]
    rw [hp] at hw
    rcases hover with hq | hq <;> rw [hq] <;> exact hw
  · intro hst
    rw [hmem, show (s.setMem (s.self t) _).exiting t = true from he]
    rw [hp, he] at hst
    exact hst.exitSection hq
  · split at hgo <;> subst hgo
    · exact rfl
    · trivial

end ThreadBites.Threads
