import ThreadBites.Descriptors

/-!
# The kinds of steps

A step only moves a thread, or it gives a descriptor a new role, or it writes to
the descriptor of one thread, or it takes a descriptor back. One lemma for each
kind says what keeps the invariant.
-/
namespace ThreadBites.Threads

open Transition WaitQueue

variable {τ δ : Type} {main : τ} {s : State τ δ}

theorem Frame.refl (s : Shared τ δ) (ph : τ → Phase) (t : τ) : Frame s s ph ph t where
  self := rfl
  held _ h := ⟨h, rfl, fun _ => rfl⟩
  listed _ h := h
  blank _ h := h
  lent _ _ h _ := ⟨h, rfl⟩
  made _ h := ⟨rfl, h, rfl, rfl, fun hs => hs⟩
  heir _ _ _ h := h
  id _ _ _ := rfl
  dead _ h := h

/-- A descriptor that no thread but `t` relies on gets a role that only `t` relies on. -/
structure Assigns (s s' : Shared τ δ) (t : τ) (d : δ) : Prop where
  role : ∀ e, e ≠ d → s'.role e = s.role e
  mem : ∀ e, e ≠ d → s'.mem e = s.mem e
  last : s'.last = s.last
  self : s'.self = s.self
  id : s'.id = s.id
  exiting : s'.exiting = s.exiting
  record : s'.record = s.record
  values : s'.values = s.values
  before : s.role d = .unused ∨ s.role d = .free ∨ s.role d = .held t ∨ s.role d = .listed t
  after : s'.role d = .held t ∨ s'.role d = .listed t ∨ s'.role d = .blank t

theorem Assigns.frame {s s' : Shared τ δ} {ph : τ → Phase} {t u : τ} {d : δ} (h : Assigns s s' t d) (hu : u ≠ t) :
    Frame s s' ph ph u := by
  have other : ∀ {e}, (s.role e = .held u ∨ s.role e = .listed u ∨ s.role e = .blank u ∨ ∃ w, s.role e = .lent w) →
      e ≠ d := by
    rintro e he rfl
    rcases h.before with hb | hb | hb | hb <;> simp [hb, hu.symm] at he
  have hlast := h.last
  exact {
    self := congrFun h.self u
    held := fun e he => ⟨(h.role e (other (.inl he))).trans he, congrFun hlast e, fun _ => by
      rw [h.mem e (other (.inl he))]⟩
    listed := fun e he => (h.role e (other (.inr (.inl he)))).trans he
    blank := fun e he => (h.role e (other (.inr (.inr (.inl he))))).trans he
    lent := fun e w he _ => ⟨(h.role e (other (.inr (.inr (.inr ⟨w, he⟩))))).trans he, congrFun hlast e⟩
    made := fun w hw => by rw [h.self, h.record]; exact ⟨rfl, hw, rfl, rfl, fun hs => hs⟩
    heir := fun _ w _ hw => by rw [h.record]; exact hw
    id := fun _ w _ => congrFun h.id w
    dead := fun _ hd => hd }

/-- Values stay right where the threads that were joined stay dead. -/
theorem ValueOk.same {s s' : Shared τ δ} {ph ph' : τ → Phase} {v : JoinValue τ} (h : ValueOk s ph v)
    (hsame : ∀ u, ph u = .dead → ph' u = .dead ∧ (s'.record u).passed = (s.record u).passed) :
    ValueOk s' ph' v := by
  obtain ⟨u, hu, hd, hr⟩ := h
  exact ⟨u, hu, (hsame u hd).1, (hsame u hd).2.trans hr⟩

/-- Only the descriptor `d` and the record of its thread `u` change. -/
structure Writes (s s' : Shared τ δ) (d : δ) (u : τ) : Prop where
  mem : ∀ e, e ≠ d → s'.mem e = s.mem e
  record : ∀ w, w ≠ u → s'.record w = s.record w
  exiting : ∀ w, w ≠ u → s'.exiting w = s.exiting w
  maker : (s'.record u).maker = (s.record u).maker
  releases : (s'.record u).releases = (s.record u).releases
  role : s'.role = s.role
  last : s'.last = s.last
  used : s'.used = s.used
  free : s'.free = s.free
  heap : s'.heap = s.heap
  self : s'.self = s.self
  id : s'.id = s.id
  values : s'.values = s.values

/-- What the threads other than `t` rely on in the descriptor `d` and the record of `u`. -/
structure Keeps (s s' : Shared τ δ) (d : δ) (u t : τ) : Prop where
  tid : ∀ w, w ≠ t → s.role d = .held w → s.last d = none → (s'.mem d).tid = (s.mem d).tid
  made : ∀ w, w ≠ t → (s.record u).maker = some w → (s'.record u).failed = (s.record u).failed ∧
    (s'.record u).returned = (s.record u).returned ∧ ((s.record u).stored = true → (s'.record u).stored = true)
  heir : ∀ w, w ≠ t → (s.record u).heir = some w → (s'.record u).heir = some w

/-- The same threads are born, and the same are dead. -/
def Lives (ph ph' : τ → Phase) : Prop :=
  ∀ w, (ph' w = .unborn ↔ ph w = .unborn) ∧ (ph' w = .dead ↔ ph w = .dead)

theorem Lives.refl (ph : τ → Phase) : Lives ph ph := fun _ => ⟨Iff.rfl, Iff.rfl⟩

theorem Writes.frame {s s' : Shared τ δ} {ph ph' : τ → Phase} {d : δ} {u t w : τ} (h : Writes s s' d u)
    (hk : Keeps s s' d u t) (hl : Lives ph ph') (hw : w ≠ t) : Frame s s' ph ph' w where
  self := congrFun h.self w
  held e he := by
    refine ⟨(congrFun h.role e).trans he, congrFun h.last e, fun hn => ?_⟩
    by_cases hd : e = d
    · subst e; exact hk.tid w hw he hn
    · rw [h.mem e hd]
  listed e he := (congrFun h.role e).trans he
  blank e he := (congrFun h.role e).trans he
  lent e _ he _ := ⟨(congrFun h.role e).trans he, congrFun h.last e⟩
  made v hv := by
    refine ⟨congrFun h.self v, ?_⟩
    by_cases hu : v = u
    · subst v
      obtain ⟨hf, hr, hs⟩ := hk.made w hw hv
      exact ⟨h.maker.trans hv, hf, hr, hs⟩
    · rw [h.record v hu]
      exact ⟨hv, rfl, rfl, fun hs => hs⟩
  heir _ v _ hv := by
    by_cases hu : v = u
    · subst v; exact hk.heir w hw hv
    · rw [h.record v hu]; exact hv
  id _ v _ := congrFun h.id v
  dead v hv := (hl v).2.mpr hv

/-- What a write has to keep of a descriptor. -/
theorem DescOk.write {s s' : Shared τ δ} {ph ph' : τ → Phase} {d : δ} {u : τ} (h : DescOk main s ph d)
    (hw : Writes s s' d u) (hl : Lives ph ph')
    (hword : ∀ w, s.last d = some w → Word (s'.mem d).tid (s.id w) (s'.record w).stored (ph' w))
    (hfree : s.role d = .free → s.last d = none → (s'.mem d).tid = (s.mem d).tid)
    (hblank : ∀ t, s.role d = .blank t → Blank (s'.mem d))
    (hunjoined : ∀ w, s.last d = some w → (s'.record w).detached = true → (s'.mem d).joiner = none)
    (hstatus : ∀ w, s.role d = .lent w → Status (s'.mem d) (s'.record w) (s'.exiting w) (ph' w)) :
    DescOk main s' ph' d where
  lent w hr := by rw [hw.role] at hr; rw [hw.last]; exact h.lent w hr
  unused hr := by rw [hw.role] at hr; rw [hw.last]; exact h.unused hr
  created w hr := by
    rw [hw.last] at hr
    obtain ⟨hself, hmain, hborn, hid⟩ := h.created w hr
    rw [hw.self, hw.id]
    exact ⟨hself, hmain, fun hu => hborn ((hl w).1.mp hu), hid⟩
  setup w t hr hrole := by
    rw [hw.last] at hr
    rw [hw.role] at hrole
    exact (hl w).2.mpr (h.setup w t hr hrole)
  word w hr := by rw [hw.last] at hr; rw [hw.id]; exact hword w hr
  freeWord hr hn := by
    rw [hw.role] at hr
    rw [hw.last] at hn
    exact (hfree hr hn).trans (h.freeWord hr hn)
  blank t hr := by rw [hw.role] at hr; exact hblank t hr
  unjoined w hr hd := by rw [hw.last] at hr; exact hunjoined w hr hd
  status w hr := by rw [hw.role] at hr; exact hstatus w hr

/-- The same of a descriptor that its thread did not release. -/
theorem DescOk.write_lent {s s' : Shared τ δ} {ph ph' : τ → Phase} {d : δ} {u : τ} (h : DescOk main s ph d)
    (hw : Writes s s' d u) (hl : Lives ph ph') (hr : s.role d = .lent u)
    (hword : Word (s'.mem d).tid (s.id u) (s'.record u).stored (ph' u))
    (hunjoined : (s'.record u).detached = true → (s'.mem d).joiner = none)
    (hstatus : Status (s'.mem d) (s'.record u) (s'.exiting u) (ph' u)) : DescOk main s' ph' d := by
  have hlast := h.lent u hr
  have only : ∀ {w}, s.last d = some w → w = u := fun hw => by
    rw [hlast] at hw
    exact (Option.some.inj hw).symm
  refine h.write hw hl ?_ ?_ ?_ ?_ ?_
  · intro w hu
    rw [only hu]; exact hword
  · intro _ hn
    rw [hlast] at hn; cases hn
  · intro t ht
    rw [hr] at ht; cases ht
  · intro w hu
    rw [only hu]; exact hunjoined
  · intro w hrole
    rw [hr] at hrole; cases hrole
    exact hstatus

/-- What a descriptor is when it is taken back: that of a thread, or one that has no thread yet. -/
def Returnable (s : Shared τ δ) (t : τ) (d : δ) : Option τ → Prop
  | some u => s.role d = .lent u
  | none => s.role d = .blank t

theorem Returnable.inUsed {s : Shared τ δ} {t : τ} {d : δ} {o : Option τ} (h : Returnable s t d o) :
    (s.role d).inUsed = true := by
  cases o <;> rw [show s.role d = _ from h] <;> rfl

theorem Returnable.only {s : Shared τ δ} {t w : τ} {d : δ} {o : Option τ} (h : Returnable s t d o)
    (hw : s.role d = .lent w) : o = some w := by
  cases o with
  | none => rw [show s.role d = _ from h] at hw; cases hw
  | some u => rw [show s.role d = _ from h] at hw; cases hw; rfl

/-- A descriptor that is in a list, or that a create holds, is in the heap. -/
theorem ListsOk.ne_of_fresh {s : Shared τ δ} {d e : δ} (h : ListsOk s) (hd : s.role d ≠ .unused) (he : e ∉ s.heap) :
    e ≠ d ∧ e ∉ s.heap := by
  refine ⟨?_, he⟩
  rintro rfl
  exact hd (h.fresh e he)

section

variable [DecidableEq δ]

/-- The lists after one descriptor got the role `r`. -/
theorem ListsOk.assign {s s' : Shared τ δ} {d : δ} {r : Role τ} (h : ListsOk s)
    (hrole : s'.role = Function.update s.role d r) (hused : s'.used.Nodup) (hfree : s'.free.Nodup)
    (hu : ∀ e, e ∈ s'.used ↔ if e = d then r.inUsed = true else e ∈ s.used)
    (hf : ∀ e, e ∈ s'.free ↔ if e = d then r = .free else e ∈ s.free)
    (hh : ∀ e, e ∉ s'.heap → e ≠ d ∧ e ∉ s.heap) : ListsOk s' := by
  refine ⟨hused, hfree, fun e => ?_, fun e => ?_, fun e he => ?_⟩
  · rw [hu, hrole]
    by_cases he : e = d
    · subst e; simp
    · simp [he, h.used]
  · rw [hf, hrole]
    by_cases he : e = d
    · subst e; simp
    · simp [he, h.free]
  · obtain ⟨hne, heap⟩ := hh e he
    rw [hrole, Function.update_of_ne hne]
    exact h.fresh e heap

theorem ListsOk.recycle {s : Shared τ δ} {d : δ} (h : ListsOk s) (hd : (s.role d).inUsed = true) :
    ListsOk (s.recycle d) := by
  have hfree : d ∉ s.free := by
    rw [h.free]
    intro hf
    simp [hf, Role.inUsed] at hd
  have hne : s.role d ≠ .unused := by
    intro hu
    simp [hu, Role.inUsed] at hd
  have hnodup : (s.free ++ [d]).Nodup := by
    rw [← List.concat_eq_append]
    exact List.Nodup.concat hfree h.freeNodup
  refine h.assign rfl (h.usedNodup.erase d) hnodup (fun e => ?_) (fun e => ?_)
    fun e he => h.ne_of_fresh hne he
  · rw [Shared.recycle, h.usedNodup.mem_erase_iff]
    by_cases he : e = d <;> simp [he, Role.inUsed]
  · by_cases he : e = d <;> simp [Shared.recycle, he]

theorem Assigns.of_role (s : Shared τ δ) {t : τ} {d : δ} {r : Role τ} (used free heap : List δ)
    (before : s.role d = .unused ∨ s.role d = .free ∨ s.role d = .held t ∨ s.role d = .listed t)
    (after : r = .held t ∨ r = .listed t ∨ r = .blank t) :
    Assigns s { s with used := used, free := free, heap := heap, role := Function.update s.role d r } t d where
  role e he := by simp [he]
  mem _ _ := rfl
  last := rfl
  self := rfl
  id := rfl
  exiting := rfl
  record := rfl
  values := rfl
  before := before
  after := by simpa using after

end

variable [DecidableEq τ]

theorem phase_move (s : State τ δ) (sh : Shared τ δ) (t : τ) (p : Pc τ δ) :
    (s.move sh t p).phase = Function.update s.phase t p.phase := by
  funext u
  by_cases hu : u = t
  · subst u; simp [State.phase, State.move]
  · simp [State.phase, State.move, hu]

/-- A thread that moves within a phase changes no phase. -/
theorem phase_move_same (s : State τ δ) (sh : Shared τ δ) {t : τ} {p : Pc τ δ} (hp : p.phase = s.phase t) :
    (s.move sh t p).phase = s.phase := by
  rw [phase_move, hp, Function.update_eq_self]

/-- The invariant after a thread moved, from its parts. -/
theorem Inv.move {sh : Shared τ δ} {ph : τ → Phase} {t : τ} {p : Pc τ δ} (hph : (s.move sh t p).phase = ph)
    (hlists : ListsOk sh) (hinitial : MainOk main sh ph) (hdesc : ∀ d, DescOk main sh ph d)
    (hthread : ∀ u, ThreadOk main sh ph u) (hplaced : Placed sh ph t p)
    (hothers : ∀ u, u ≠ t → Placed sh ph u (s.pc u)) (hvalues : ∀ v ∈ sh.values, ValueOk sh ph v) :
    Inv main (s.move sh t p) := by
  subst hph
  refine ⟨hlists, hinitial, hdesc, hthread, fun u => ?_, hvalues⟩
  by_cases hu : u = t
  · subst u
    simpa [State.move] using hplaced
  · simpa [State.move, hu] using hothers u hu

/-- Only the records of calls and values change, and a thread moves within its phase. -/
theorem Inv.goto (h : Inv main s) {sh : Shared τ δ} {t : τ} {p : Pc τ δ} (hp : p.phase = s.phase t)
    (hsh : ∃ calls values, sh = { s.toShared with calls := calls, values := values } ∧
      ∀ v ∈ values, ValueOk s.toShared s.phase v)
    (hplaced : Placed s.toShared s.phase t p) : Inv main (s.move sh t p) := by
  obtain ⟨calls, values, rfl, hvalues⟩ := hsh
  have same : ∀ w, Frame s.toShared { s.toShared with calls := calls, values := values } s.phase s.phase w :=
    fun w => { Frame.refl s.toShared s.phase w with }
  exact Inv.move (phase_move_same s _ hp) { h.lists with } { h.initial with }
    (fun d => (h.desc d).congr rfl rfl rfl fun _ _ => ⟨rfl, rfl, rfl, rfl, rfl⟩)
    (fun u => (h.thread u).congr rfl rfl rfl rfl rfl Iff.rfl fun _ hl => hl) (hplaced.frame (same t) fun _ _ => id)
    (fun u _ => (h.placed u).frame (same u) fun _ _ => id) hvalues

theorem Inv.assign (h : Inv main s) {sh : Shared τ δ} {t : τ} {d : δ} {p : Pc τ δ}
    (ha : Assigns s.toShared sh t d) (hp : p.phase = s.phase t) (hlists : ListsOk sh)
    (hheap : sh.self main ∈ sh.heap) (hmain : s.self main ≠ d)
    (hdead : ∀ u w, s.last d = some u → sh.role d = .listed w ∨ sh.role d = .blank w → s.phase u = .dead)
    (hmem : sh.mem d = s.mem d ∨ sh.mem d = .zero ∧ Ended s.toShared s.phase d)
    (hblank : ∀ w, sh.role d = .blank w → sh.mem d = .zero)
    (hplaced : Placed sh s.phase t p) : Inv main (s.move sh t p) := by
  have hnot : ∀ u, sh.role d ≠ .lent u := by
    intro u hu
    rcases ha.after with hr | hr | hr <;> simp [hr] at hu
  have hwas : ∀ u, s.role d ≠ .lent u := by
    intro u hu
    rcases ha.before with hr | hr | hr | hr <;> simp [hr] at hu
  refine Inv.move (phase_move_same s sh hp) hlists ⟨hheap, ?_, h.initial.born⟩ ?_ ?_ hplaced
    (fun u hu => (h.placed u).frame (ha.frame hu) fun _ _ => id) ?_
  · rw [ha.self, ha.role _ hmain]
    exact h.initial.role
  · intro e
    by_cases he : e = d
    · subst e
      have hd := h.desc d
      exact {
        lent := fun u hu => absurd hu (hnot u)
        unused := fun hu => by rcases ha.after with hr | hr | hr <;> simp [hr] at hu
        created := fun u hu => by rw [ha.last] at hu; rw [ha.self, ha.id]; exact hd.created u hu
        setup := fun u w hu hr => by rw [ha.last] at hu; exact hdead u w hu hr
        word := fun u hu => by
          rw [ha.last] at hu
          rw [ha.id, ha.record]
          rcases hmem with hm | ⟨hm, hended⟩
          · rw [hm]; exact hd.word u hu
          · rw [hm, hended u hu]; rfl
        freeWord := fun hf => by rcases ha.after with hr | hr | hr <;> simp [hr] at hf
        blank := fun w hw => by
          rw [hblank w hw]
          exact ⟨rfl, rfl, by simp [Desc.zero], by simp [Desc.zero]⟩
        unjoined := fun u hu hdet => by
          rw [ha.last] at hu
          rw [ha.record] at hdet
          rcases hmem with hm | ⟨hm, -⟩
          · rw [hm]; exact hd.unjoined u hu hdet
          · rw [hm]; rfl
        status := fun u hu => absurd hu (hnot u) }
    · exact (h.desc e).congr (ha.role e he) (congrFun ha.last e) (ha.mem e he) fun u _ =>
        ⟨congrFun ha.self u, congrFun ha.id u, congrFun ha.record u, congrFun ha.exiting u, rfl⟩
  · intro u
    refine (h.thread u).congr (congrFun ha.self u) (by rw [ha.record]) (by rw [ha.record])
      (congrFun ha.exiting u) rfl ?_ (by rw [ha.last]; exact fun _ hl => hl)
    by_cases hs : s.self u = d
    · rw [hs]
      exact ⟨fun hr => absurd hr (hnot u), fun hr => absurd hr (hwas u)⟩
    · rw [ha.role _ hs]
  · intro v hv
    rw [ha.values] at hv
    exact (h.values v hv).same fun u hu => ⟨hu, by rw [ha.record]⟩

theorem Inv.write (h : Inv main s) {sh : Shared τ δ} {ph : τ → Phase} {t u : τ} {d : δ} {p : Pc τ δ}
    (hw : Writes s.toShared sh d u) (hph : (s.move sh t p).phase = ph) (hl : Lives s.phase ph)
    (hsame : ∀ w, w ≠ u → ph w = s.phase w) (hown : ∀ e, s.last e = some u → e = d)
    (hdesc : DescOk main sh ph d) (hthread : ThreadOk main sh ph u) (hplaced : Placed sh ph t p)
    (hk : Keeps s.toShared sh d u t) (hpassed : s.phase u = .dead → (sh.record u).passed = (s.record u).passed) :
    Inv main (s.move sh t p) := by
  refine Inv.move hph ?_ ?_ ?_ ?_ hplaced ?_ ?_
  · have hlists := h.lists
    exact ⟨by rw [hw.used]; exact hlists.usedNodup, by rw [hw.free]; exact hlists.freeNodup,
      by rw [hw.used, hw.role]; exact hlists.used, by rw [hw.free, hw.role]; exact hlists.free,
      by rw [hw.heap, hw.role]; exact hlists.fresh⟩
  · have hm := h.initial
    exact ⟨by rw [hw.self, hw.heap]; exact hm.heap, by rw [hw.self, hw.role]; exact hm.role,
      fun hb => hm.born ((hl main).1.mp hb)⟩
  · intro e
    by_cases he : e = d
    · subst e; exact hdesc
    · refine (h.desc e).congr (congrFun hw.role e) (congrFun hw.last e) (hw.mem e he) fun w hr => ?_
      have hne : w ≠ u := fun hwu => he (hown e (hwu ▸ hr))
      exact ⟨congrFun hw.self w, congrFun hw.id w, hw.record w hne, hw.exiting w hne, hsame w hne⟩
  · intro w
    by_cases hwu : w = u
    · subst w; exact hthread
    · refine (h.thread w).congr (congrFun hw.self w) (by rw [hw.record w hwu]) (by rw [hw.record w hwu])
        (hw.exiting w hwu) (hsame w hwu) (by rw [hw.role])
        (by rw [hw.last]; exact fun _ hl => hl)
  · intro w hwt
    exact (h.placed w).frame (hw.frame hk hl hwt) fun v _ hv hd => hv ((hl v).2.mp hd)
  · intro v hv
    rw [hw.values] at hv
    refine (h.values v hv).same fun w hd => ⟨(hl w).2.mpr hd, ?_⟩
    by_cases hwu : w = u
    · subst w; exact hpassed hd
    · rw [hw.record w hwu]

theorem count_record (s : Shared τ δ) (o : Option τ) (w : τ) : (s.count o).record w =
    { s.record w with releases := (s.record w).releases + if o = some w then 1 else 0 } := by
  cases o with
  | none => simp [Shared.count]
  | some u =>
    by_cases hu : w = u
    · subst w; simp [Shared.count, Shared.note]
    · simp [Shared.count, Shared.note, hu, Ne.symm hu]

/-- Counting a release changes nothing else. -/
theorem count_eq (s : Shared τ δ) (o : Option τ) :
    s.count o = { s with record := (s.count o).record } := by
  cases o <;> rfl

variable [DecidableEq δ]

theorem Returnable.frame {s : Shared τ δ} {ph ph' : τ → Phase} {t w : τ} {d : δ} {o : Option τ}
    (h : Returnable s t d o) (hl : Lives ph ph') (hw : w ≠ t)
    (hsole : ∀ u, o = some u →
      ¬ ((s.record u).heir = some w ∨ (s.record u).maker = some w ∧ (s.record u).failed = true)) :
    Frame s ((s.count o).recycle d) ph ph' w := by
  have hrecord := count_record s o
  rw [count_eq s o]
  generalize (s.count o).record = record at hrecord
  have other : ∀ {e}, s.role e = .held w ∨ s.role e = .listed w ∨ s.role e = .blank w → e ≠ d := by
    rintro e he rfl
    cases o <;> rw [show s.role e = _ from h] at he <;> simp [hw.symm] at he
  have keep : ∀ {e}, e ≠ d → ∀ r, s.role e = r → Function.update s.role d .free e = r := fun he r hr => by
    simpa [he] using hr
  exact {
    self := rfl
    held := fun e he => ⟨keep (other (.inl he)) _ he, rfl, fun _ => rfl⟩
    listed := fun e he => keep (other (.inr (.inl he))) _ he
    blank := fun e he => keep (other (.inr (.inr he))) _ he
    lent := fun e u he hu => by
      refine ⟨keep ?_ _ he, rfl⟩
      rintro rfl
      exact hsole u (h.only he) hu
    made := fun u hu => by simp [Shared.recycle, hrecord, hu]
    heir := fun _ u _ hu => by simpa [Shared.recycle, hrecord] using hu
    id := fun _ _ _ => rfl
    dead := fun u hu => (hl u).2.mpr hu }

/-- `release_descriptor` takes a descriptor back from a thread that is over with it, or from a create
that has no thread. -/
theorem Inv.recycle (h : Inv main s) {ph : τ → Phase} {t : τ} {d : δ} {o : Option τ} {p : Pc τ δ}
    (hph : (s.move ((s.toShared.count o).recycle d) t p).phase = ph) (hl : Lives s.phase ph)
    (hsame : ∀ w, o ≠ some w → ph w = s.phase w) (hr : Returnable s.toShared t d o)
    (hover : ∀ u, o = some u → s.phase u = .dead ∨ s.phase u = .releasing ∧ ph u = .leaving)
    (hsole : ∀ u w, o = some u → w ≠ t →
      ¬ ((s.record u).heir = some w ∨ (s.record u).maker = some w ∧ (s.record u).failed = true))
    (hplaced : Placed ((s.toShared.count o).recycle d) ph t p) :
    Inv main (s.move ((s.toShared.count o).recycle d) t p) := by
  have hframe : ∀ w, w ≠ t → Frame s.toShared ((s.toShared.count o).recycle d) s.phase ph w := fun w hw =>
    hr.frame hl hw fun u hu => hsole u w hu hw
  have hrecord := count_record s.toShared o
  have heq := count_eq s.toShared o
  have hd := h.desc d
  have hended : ∀ u, o = some u → (ph u).gone = true := by
    intro u hu
    rcases hover u hu with hdead | ⟨-, hleave⟩
    · rw [(hl u).2.mpr hdead]; rfl
    · rw [hleave]; rfl
  have howner : ∀ u, o = some u → s.last d = some u := by
    rintro u rfl
    exact hd.lent u hr
  generalize (s.toShared.count o).record = record at heq hrecord
  rw [heq] at hph hplaced hframe ⊢
  refine Inv.move hph { h.lists.recycle hr.inUsed with } ?_ ?_ ?_ hplaced
    (fun w hw => (h.placed w).frame (hframe w hw) fun v _ hv hd => hv ((hl v).2.mp hd)) ?_
  · have hne : s.self main ≠ d := by
      intro he
      have hused := hr.inUsed
      rw [← he, h.initial.role] at hused
      cases hused
    exact ⟨h.initial.heap, by simpa [Shared.recycle, hne] using h.initial.role,
      fun hb => h.initial.born ((hl main).1.mp hb)⟩
  · intro e
    by_cases he : e = d
    · subst e
      exact {
        lent := fun u hu => by simp [Shared.recycle] at hu
        unused := fun hu => by simp [Shared.recycle] at hu
        created := fun u hu => by
          obtain ⟨hself, hmain, hborn, hid⟩ := hd.created u hu
          exact ⟨hself, hmain, fun hb => hborn ((hl u).1.mp hb), hid⟩
        setup := fun u w hu hrole => by simp [Shared.recycle] at hrole
        word := fun u hu => by
          have hw := hd.word u hu
          simp only [Shared.recycle, hrecord]
          by_cases ho : o = some u
          · rcases hover u ho with hdead | ⟨hrel, hleave⟩
            · rw [(hl u).2.mpr hdead]; rw [hdead] at hw; exact hw
            · rw [hleave]; rw [hrel] at hw; exact hw
          · rw [hsame u ho]; exact hw
        freeWord := fun _ hn => by
          cases o with
          | none => exact (hd.blank t hr).tid
          | some u => exact absurd (howner u rfl) (by rw [show s.last d = none from hn]; nofun)
        blank := fun w hw => by simp [Shared.recycle] at hw
        unjoined := fun u hu hdet => by
          simp only [Shared.recycle, hrecord] at hdet
          exact hd.unjoined u hu hdet
        status := fun u hu => by simp [Shared.recycle] at hu }
    · refine (h.desc e).congr (by simp [Shared.recycle, he]) rfl rfl fun u hu => ?_
      have ho : o ≠ some u := fun ho =>
        he (((h.desc e).created u hu).1.symm.trans (hd.created u (howner u ho)).1)
      exact ⟨rfl, rfl, by simp [Shared.recycle, hrecord, ho], rfl, hsame u ho⟩
  · intro u
    have hu := h.thread u
    by_cases ho : o = some u
    · have hself := (hd.created u (howner u ho)).1
      subst o
      have hcase : (ph u).active = false ∧ (ph u).early = false := by
        have := hended u rfl
        cases hp : ph u <;> rw [hp] at this <;> first | exact ⟨rfl, rfl⟩ | cases this
      have hrel := hu.releases (hd.created u (howner u rfl)).2.1
      have hzero := hrel.2 (by rw [hself]; exact hr)
      exact {
        made := fun w hw => by
          simp only [Shared.recycle, hrecord] at hw
          exact ⟨(hu.made w hw).1, fun hb => (hu.made w hw).2 ((hl u).1.mp hb)⟩
        active := fun _ ha => by rw [hcase.1] at ha; cases ha
        leaving := fun _ _ => by
          show s.last (s.self u) = some u
          rw [hself]
          exact howner u rfl
        early := fun he => by rw [hcase.2] at he; cases he
        releases := fun _ => by
          refine ⟨by simp [Shared.recycle, hrecord, hzero], fun hrole => ?_⟩
          simp [Shared.recycle, hself] at hrole }
    · refine hu.congr rfl (by simp [Shared.recycle, hrecord]) (by simp [Shared.recycle, hrecord, ho]) rfl
        (hsame u ho) ?_ fun _ hlast => hlast
      by_cases hself : s.self u = d
      · rw [hself]
        exact ⟨fun hrole => by simp [Shared.recycle] at hrole, fun hrole => absurd (hr.only hrole) ho⟩
      · simp [Shared.recycle, hself]
  · intro v hv
    exact (h.values v hv).same fun u hu => ⟨(hl u).2.mpr hu, by simp [Shared.recycle, hrecord]⟩

end ThreadBites.Threads
