import ThreadBites.Threads

/-!
# What a descriptor is at any time

The invariant says for each descriptor what its memory holds, given what it is
for and which thread used it last; for each thread where its descriptor is; and
for each place of the code what a thread there can rely on.
-/
namespace ThreadBites.Threads

open Transition WaitQueue

variable {τ δ : Type}

/-- The parts of a thread's life. -/
inductive Phase where
  | unborn
  | born
  | starting
  | running
  | releasing
  | leaving
  | dead
  deriving DecidableEq, Repr

def Pc.phase : Pc τ δ → Phase
  | .unborn => .unborn
  | .born => .born
  | .checkStart | .startWait | .startAsleep _ | .recheckStart => .starting
  | .release _ .exit => .releasing
  | .leaving => .leaving
  | .dead => .dead
  | _ => .running

def State.phase (s : State τ δ) (u : τ) : Phase := (s.pc u).phase

/-- The thread needs its descriptor. -/
def Phase.active : Phase → Bool
  | .born | .starting | .running | .releasing => true
  | _ => false

/-- The thread has not come to the user's function. -/
def Phase.early : Phase → Bool
  | .unborn | .born | .starting => true
  | _ => false

/-- The thread never is in the user's code again. -/
def Phase.gone : Phase → Bool
  | .leaving | .dead => true
  | _ => false

def Role.inUsed : Role τ → Bool
  | .listed _ | .blank _ | .lent _ => true
  | _ => false

/-- The word of a thread with this id. -/
def Word (tid id : BitVec 32) (stored : Bool) : Phase → Prop
  | .dead => tid = 0
  | .born => (tid = 0 ∨ tid = id) ∧ (stored = true → tid = id)
  | _ => tid = id

/-- A descriptor after `memset` and before it has a thread. -/
structure Blank (v : Desc δ) : Prop where
  tid : v.tid = 0
  joiner : v.joiner = none
  start : v.startStatus ≠ .exit
  status : v.joinStatus ≠ .joinableFixed

/-- The descriptor of a thread that is not released. -/
structure Status (v : Desc δ) (r : Record τ) (exiting : Bool) (p : Phase) : Prop where
  detached : v.joinStatus = .detached → r.detached = true
  kept : r.detached = true → v.joinStatus = .detached ∨ p = .releasing
  joined : v.joiner ≠ none → v.joinStatus = .joinableFixed ∧ v.startStatus ≠ .exit
  heir : r.heir ≠ none → v.joiner ≠ none ∧ (p = .born → r.stored = true)
  releasing : p = .releasing → r.detached = true
  gone : p.gone = true → exiting = true ∨ r.failed = true
  passed : exiting = true → r.passed = some v.retval
  failed : r.failed = true ↔ v.startStatus = .exit
  failing : r.failed = true → (p.early = true ∨ p.gone = true) ∧ exiting = false ∧ v.joiner = none ∧
    r.returned = false
  returned : r.returned = true → r.stored = true

structure ListsOk (s : Shared τ δ) : Prop where
  usedNodup : s.used.Nodup
  freeNodup : s.free.Nodup
  used : ∀ d, d ∈ s.used ↔ (s.role d).inUsed = true
  free : ∀ d, d ∈ s.free ↔ s.role d = .free
  fresh : ∀ d, d ∉ s.heap → s.role d = .unused

/-- The initial thread is there, and its descriptor is in no list. -/
structure MainOk (main : τ) (s : Shared τ δ) (ph : τ → Phase) : Prop where
  heap : s.self main ∈ s.heap
  role : s.role (s.self main) = .unused
  born : ph main ≠ .unborn

structure DescOk (main : τ) (s : Shared τ δ) (ph : τ → Phase) (d : δ) : Prop where
  lent : ∀ u, s.role d = .lent u → s.last d = some u
  unused : s.role d = .unused → s.last d = none
  created : ∀ u, s.last d = some u → s.self u = d ∧ u ≠ main ∧ ph u ≠ .unborn ∧ s.id u ≠ 0
  setup : ∀ u t, s.last d = some u → s.role d = .listed t ∨ s.role d = .blank t → ph u = .dead
  word : ∀ u, s.last d = some u → Word (s.mem d).tid (s.id u) (s.record u).stored (ph u)
  freeWord : s.role d = .free → s.last d = none → (s.mem d).tid = 0
  blank : ∀ t, s.role d = .blank t → Blank (s.mem d)
  unjoined : ∀ u, s.last d = some u → (s.record u).detached = true → (s.mem d).joiner = none
  status : ∀ u, s.role d = .lent u → Status (s.mem d) (s.record u) (s.exiting u) (ph u)

structure ThreadOk (main : τ) (s : Shared τ δ) (ph : τ → Phase) (u : τ) : Prop where
  made : ∀ t, (s.record u).maker = some t → u ≠ main ∧ ph u ≠ .unborn
  active : u ≠ main → (ph u).active = true → s.role (s.self u) = .lent u
  leaving : u ≠ main → ph u = .leaving → s.last (s.self u) = some u
  early : (ph u).early = true → s.exiting u = false
  releases : u ≠ main → (s.record u).releases ≤ 1 ∧ (s.role (s.self u) = .lent u → (s.record u).releases = 0)

/-- The thread that used the descriptor last has terminated. -/
def Ended (s : Shared τ δ) (ph : τ → Phase) (d : δ) : Prop := ∀ u, s.last d = some u → ph u = .dead

/-- The id that was read is that of the thread that uses the descriptor. -/
def Waiting (s : Shared τ δ) (ph : τ → Phase) (d : δ) (k : BitVec 32) : Prop :=
  k ≠ 0 ∧ ∃ u, s.last d = some u ∧ (ph u ≠ .dead → s.id u = k)

/-- What entitles thread `t` to wait for the thread of a descriptor. -/
def Lien (s : Shared τ δ) (t : τ) (d : δ) : Waiter τ → Prop
  | .reuse _ => s.role d = .held t ∧ (s.last d = none → (s.mem d).tid = 0)
  | .failed u => s.role d = .lent u ∧ (s.record u).maker = some t ∧ (s.record u).failed = true ∧
      (s.record u).stored = true
  | .join o => ∃ u, o = some u ∧ s.role d = .lent u ∧ (s.record u).heir = some t

/-- Thread `t` is in the create that made `u`. -/
def Making (s : Shared τ δ) (t : τ) (d : δ) (u : τ) : Prop :=
  (s.record u).maker = some t ∧ s.self u = d ∧ (s.record u).failed = false ∧ (s.record u).returned = false

/-- What a thread relies on at its place. -/
def Placed (s : Shared τ δ) (ph : τ → Phase) (t : τ) : Pc τ δ → Prop
  | .addUsed d _ => s.role d = .held t ∧ Ended s ph d
  | .clear d _ => s.role d = .listed t
  | .fill d _ => s.role d = .blank t
  | .clone d _ => s.role d = .blank t
  | .storeTid d _ u => Making s t d u ∧ ph u ≠ .dead
  | .setSched d u => Making s t d u ∧ (s.record u).stored = true
  | .storeStart d u _ => Making s t d u ∧ (s.record u).stored = true
  | .wakeStart d u true => Making s t d u ∧ (s.record u).stored = true
  | .wakeStart d u false => Lien s t d (.failed u)
  | .readTid d w => Lien s t d w
  | .waitTid d k w => Lien s t d w ∧ Waiting s ph d k
  | .asleep d k w => Lien s t d w ∧ Waiting s ph d k ∧ ¬ Ended s ph d
  | .readRetval d o => Lien s t d (.join o) ∧ Ended s ph d
  | .release (some d) .exit => d = s.self t
  | .release (some d) .unstarted => s.role d = .blank t
  | .release (some d) (.failed u) => Lien s t d (.failed u) ∧ Ended s ph d
  | .release (some d) (.join o) => Lien s t d (.join o) ∧ Ended s ph d
  | .release none r => r = .unstarted
  | _ => True

/-- A value that a join stored is what the thread passed on before it terminated. -/
def ValueOk (s : Shared τ δ) (ph : τ → Phase) (v : JoinValue τ) : Prop :=
  ∃ u, v.thread = some u ∧ ph u = .dead ∧ (s.record u).passed = some v.value

structure Inv (main : τ) (s : State τ δ) : Prop where
  lists : ListsOk s.toShared
  initial : MainOk main s.toShared s.phase
  desc : ∀ d, DescOk main s.toShared s.phase d
  thread : ∀ u, ThreadOk main s.toShared s.phase u
  placed : ∀ t, Placed s.toShared s.phase t (s.pc t)
  values : ∀ v ∈ s.values, ValueOk s.toShared s.phase v

theorem DescOk.congr {main : τ} {s s' : Shared τ δ} {ph ph' : τ → Phase} {d : δ} (h : DescOk main s ph d)
    (hrole : s'.role d = s.role d) (hlast : s'.last d = s.last d) (hmem : s'.mem d = s.mem d)
    (hthread : ∀ u, s.last d = some u → s'.self u = s.self u ∧ s'.id u = s.id u ∧ s'.record u = s.record u ∧
      s'.exiting u = s.exiting u ∧ ph' u = ph u) : DescOk main s' ph' d where
  lent u hu := by rw [hlast]; exact h.lent u (hrole ▸ hu)
  unused hu := by rw [hlast]; exact h.unused (hrole ▸ hu)
  created u hu := by
    rw [hlast] at hu
    obtain ⟨hs, hi, -, -, hp⟩ := hthread u hu
    rw [hs, hi, hp]
    exact h.created u hu
  setup u t hu hr := by
    rw [hlast] at hu
    rw [hrole] at hr
    rw [(hthread u hu).2.2.2.2]
    exact h.setup u t hu hr
  word u hu := by
    rw [hlast] at hu
    obtain ⟨-, hi, hr, -, hp⟩ := hthread u hu
    rw [hmem, hi, hr, hp]
    exact h.word u hu
  freeWord hf hn := by rw [hmem]; exact h.freeWord (hrole ▸ hf) (hlast ▸ hn)
  blank t ht := by rw [hmem]; exact h.blank t (hrole ▸ ht)
  unjoined u hu hd := by
    rw [hlast] at hu
    rw [(hthread u hu).2.2.1] at hd
    rw [hmem]
    exact h.unjoined u hu hd
  status u hu := by
    rw [hrole] at hu
    obtain ⟨-, -, hr, he, hp⟩ := hthread u (h.lent u hu)
    rw [hmem, hr, he, hp]
    exact h.status u hu

theorem ThreadOk.congr {main : τ} {s s' : Shared τ δ} {ph ph' : τ → Phase} {u : τ} (h : ThreadOk main s ph u)
    (hself : s'.self u = s.self u) (hmaker : (s'.record u).maker = (s.record u).maker)
    (hreleases : (s'.record u).releases = (s.record u).releases) (hexiting : s'.exiting u = s.exiting u)
    (hph : ph' u = ph u) (hrole : s'.role (s.self u) = .lent u ↔ s.role (s.self u) = .lent u)
    (hlast : ph u = .leaving → s.last (s.self u) = some u → s'.last (s.self u) = some u) :
    ThreadOk main s' ph' u where
  made t ht := by rw [hph]; exact h.made t (hmaker ▸ ht)
  active hu ha := by rw [hself, hrole]; exact h.active hu (hph ▸ ha)
  leaving hu hp := by rw [hself]; exact hlast (hph ▸ hp) (h.leaving hu (hph ▸ hp))
  early he := by rw [hexiting]; exact h.early (hph ▸ he)
  releases hu := by rw [hreleases, hself, hrole]; exact h.releases hu

/-- A change leaves alone what thread `t` relies on. -/
structure Frame (s s' : Shared τ δ) (ph ph' : τ → Phase) (t : τ) : Prop where
  self : s'.self t = s.self t
  held : ∀ d, s.role d = .held t → s'.role d = .held t ∧ s'.last d = s.last d ∧
    (s.last d = none → (s'.mem d).tid = (s.mem d).tid)
  listed : ∀ d, s.role d = .listed t → s'.role d = .listed t
  blank : ∀ d, s.role d = .blank t → s'.role d = .blank t
  lent : ∀ d u, s.role d = .lent u →
    (s.record u).heir = some t ∨ (s.record u).maker = some t ∧ (s.record u).failed = true →
      s'.role d = .lent u ∧ s'.last d = s.last d
  made : ∀ u, (s.record u).maker = some t → s'.self u = s.self u ∧ (s'.record u).maker = some t ∧
    (s'.record u).failed = (s.record u).failed ∧ (s'.record u).returned = (s.record u).returned ∧
    ((s.record u).stored = true → (s'.record u).stored = true)
  heir : ∀ d u, s.role d = .lent u → (s.record u).heir = some t → (s'.record u).heir = some t
  id : ∀ d u, s.last d = some u → s'.id u = s.id u
  dead : ∀ u, ph u = .dead → ph' u = .dead

/-- The threads that a place needs alive. -/
def Relies (s : Shared τ δ) : Pc τ δ → τ → Prop
  | .storeTid _ _ v, u => v = u
  | .asleep d _ _, u => s.last d = some u
  | _, _ => False

section

variable {s s' : Shared τ δ} {ph ph' : τ → Phase} {t : τ}

theorem Lien.frame {d : δ} {w : Waiter τ} (h : Lien s t d w) (f : Frame s s' ph ph' t) :
    Lien s' t d w ∧ s'.last d = s.last d := by
  cases w with
  | reuse attr =>
    obtain ⟨hrole, hzero⟩ := h
    obtain ⟨hr, hl, ht⟩ := f.held d hrole
    exact ⟨⟨hr, fun hn => by rw [hl] at hn; rw [ht hn]; exact hzero hn⟩, hl⟩
  | failed u =>
    obtain ⟨hrole, hmaker, hfailed, hstored⟩ := h
    obtain ⟨hr, hl⟩ := f.lent d u hrole (.inr ⟨hmaker, hfailed⟩)
    obtain ⟨-, hm, hf, -, hs⟩ := f.made u hmaker
    exact ⟨⟨hr, hm, hf.trans hfailed, hs hstored⟩, hl⟩
  | join o =>
    obtain ⟨u, rfl, hrole, hheir⟩ := h
    obtain ⟨hr, hl⟩ := f.lent d u hrole (.inl hheir)
    exact ⟨⟨u, rfl, hr, f.heir d u hrole hheir⟩, hl⟩

theorem Ended.frame {d : δ} (h : Ended s ph d) (f : Frame s s' ph ph' t) (hl : s'.last d = s.last d) :
    Ended s' ph' d := by
  intro u hu
  exact f.dead u (h u (hl ▸ hu))

theorem Waiting.frame {d : δ} {k : BitVec 32} (h : Waiting s ph d k) (f : Frame s s' ph ph' t)
    (hl : s'.last d = s.last d) : Waiting s' ph' d k := by
  obtain ⟨hne, u, hu, hk⟩ := h
  refine ⟨hne, u, hl.trans hu, fun hne => ?_⟩
  rw [f.id d u hu]
  exact hk fun hd => hne (f.dead u hd)

theorem Making.frame {d : δ} {u : τ} (h : Making s t d u) (f : Frame s s' ph ph' t) : Making s' t d u := by
  obtain ⟨hmaker, hself, hfailed, hreturned⟩ := h
  obtain ⟨hs, hm, hf, hr, -⟩ := f.made u hmaker
  exact ⟨hm, hs.trans hself, hf.trans hfailed, hr.trans hreturned⟩

theorem Placed.frame {p : Pc τ δ} (h : Placed s ph t p) (f : Frame s s' ph ph' t)
    (halive : ∀ u, Relies s p u → ph u ≠ .dead → ph' u ≠ .dead) : Placed s' ph' t p := by
  have stored : ∀ {d u}, Making s t d u ∧ (s.record u).stored = true →
      Making s' t d u ∧ (s'.record u).stored = true := fun ⟨hm, hs⟩ =>
    ⟨hm.frame f, (f.made _ hm.1).2.2.2.2 hs⟩
  have ended : ∀ {d w}, Lien s t d w ∧ Ended s ph d → Lien s' t d w ∧ Ended s' ph' d := fun ⟨hl, he⟩ =>
    ⟨(hl.frame f).1, he.frame f (hl.frame f).2⟩
  cases p with
  | addUsed d attr =>
    obtain ⟨hr, hl, -⟩ := f.held d h.1
    exact ⟨hr, h.2.frame f hl⟩
  | clear d attr => exact f.listed d h
  | fill d attr => exact f.blank d h
  | clone d attr => exact f.blank d h
  | storeTid d attr u => exact ⟨h.1.frame f, halive u rfl h.2⟩
  | setSched d u => exact stored h
  | storeStart d u ok => exact stored h
  | wakeStart d u ok =>
    cases ok with
    | true => exact stored h
    | false => exact (Lien.frame (w := .failed u) h f).1
  | readTid d w => exact (Lien.frame h f).1
  | waitTid d k w => exact ⟨(h.1.frame f).1, h.2.frame f (h.1.frame f).2⟩
  | asleep d k w =>
    obtain ⟨hl, hw, hne⟩ := h
    refine ⟨(hl.frame f).1, hw.frame f (hl.frame f).2, fun he => hne fun u hu => ?_⟩
    by_contra hd
    exact halive u hu hd (he u ((hl.frame f).2.trans hu))
  | readRetval d o => exact ended h
  | release desc r =>
    cases desc with
    | none => exact h
    | some d =>
      cases r with
      | exit => exact Eq.trans h f.self.symm
      | unstarted => exact f.blank d h
      | failed u => exact ended h
      | join o => exact ended h
  | _ => trivial

end

end ThreadBites.Threads
