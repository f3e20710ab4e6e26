import Cakemaster.Object.Lifecycle

/-!
# What a call knows and what others leave alone

`Wellformed` holds of the store, `Sound` of the store and one call, `Apart` of two calls.
A move keeps all three. What the other calls rely on is stated once, in `Rely`: a move
changes a slot only under its lock, and what has become of a version is not undone.
-/

namespace Cakemaster.Object

open Segment

variable {A : UnitAllocator}

namespace Standing

variable {v : VersionRef}

/-- Published once and not off its slot for good: the version has its commit record. -/
def isHeld : Standing → Bool
  | published _ | withdrawn _ | detached => true
  | _ => false

/-- Off its slot for good, and known from when on it may be reclaimed. -/
def isSettled : Standing → Bool
  | left _ | forced | lost => true
  | _ => false

/-- Off its slot for good. -/
def isGone : Standing → Bool
  | detached | left _ | forced | lost => true
  | _ => false

def isNew : Standing → Bool
  | unborn | fresh => true
  | _ => false

def isYoung : Standing → Bool
  | unborn | fresh | staged _ => true
  | _ => false

/-- On the slot, or taken off it by a call that may put it back. -/
def isAt (s : SlotRef) : Standing → Bool
  | published s' | withdrawn s' => s' = s
  | _ => false

end Standing

/-- A lease until `deadline` protects the version: it is in force, and if the version
has left its slot in the ordinary way it stays until then. -/
structure VersionView.Safe (x : VersionView A) (deadline : CatalogTick) : Prop where
  sealed : x.sealed = true
  lease : deadline ≤ x.lease
  standing : x.standing.isYoung = false
  left : ∀ reclaimAfter, x.standing = .left reclaimAfter → deadline ≤ reclaimAfter

namespace View

/-- The version is staged by no transaction but `id` of slot `s`. -/
def OnlyAt (u : View A) (s : SlotRef) (id : TransactionId) (v : VersionRef) : Prop :=
  (u.standing v).isNew = false ∧
    ∀ s' a, u.active s' = some a → a.phase = .staged v → s' = s ∧ a.id = id

/-- No transaction waits to be committed with the version. -/
def Unstaged (u : View A) (v : VersionRef) : Prop :=
  (u.standing v).isNew = false ∧
    ∀ s a, u.active s = some a → a.phase = .staged v → (u.versions v).sealed = true

/-- The transaction will never again wait with the version. -/
def Over (u : View A) (c : PendingCandidate) : Prop :=
  (u.standing c.pending).isNew = false ∧
    (u.StagedAt c.slot c.transactionId c.pending → (u.versions c.pending).sealed = true)

def Free (u : View A) (s : SlotRef) (next : TransactionId) : Prop :=
  u.indexed s = true ∧ u.active s = none ∧ (u.slots s).nextTransactionId = next

/-- The transaction may be committed: its base is what the slot has committed. -/
def Ready (u : View A) (s : SlotRef) (a : ActiveTransaction) (v : VersionRef) : Prop :=
  u.active s = some a ∧ a.phase = .staged v ∧ u.committed s = a.base

/-- No commit of the slot has the number or a larger one. -/
def NextNumber (u : View A) (s : SlotRef) (number : VersionId) : Prop :=
  number < (u.slots s).nextVersionId ∧
    ∀ r ∈ u.resolved, r.slot = s → ∀ earlier, r.outcome = some earlier → earlier < number

end View

namespace Focus

/-- What a call may conclude from its focus. -/
def Holds (u : View A) : Focus A → Prop
  | none | locked _ => True
  | saw v => (u.versions v).sealed = true
  | granted v deadline | noted v deadline => (u.versions v).sealed = true ∧
  deadline ≤ (u.versions v).lease
  | returned v deadline => (u.versions v).Safe deadline
  | replaced old => u.standing old = .detached
  | leaving v reclaimAfter => u.Settled v reclaimAfter
  | kept s => u.indexed s = true
  | free s next => u.Free s next
  | based s next base => u.Free s next ∧ u.committed s = base
  | busy s a => u.active s = some a
  | ready s a v => u.Ready s a v
  | numbered s a v number => u.Ready s a v ∧ u.NextNumber s number
  | sealed s a v => u.Ready s a v ∧ (u.versions v).sealed = true ∧
    u.NextNumber s (u.versions v).number
  | replacing _ base => ∀ old, base = some old → u.standing old = .detached
  | vacant s => u.active s = .none
  | hollow s => u.committed s = .none
  | pointed s v => u.committed s = some v
  | idle s v => u.active s = .none ∧ u.committed s = some v
  | examined s v replicas => u.committed s = some v ∧ (u.versions v).replicas = replicas
  | condemned s v replicas => u.active s = .none ∧ u.committed s = some v ∧
      (u.versions v).replicas = replicas
  | taken s v => u.standing v = .withdrawn s
  | closing _ v reclaimAfter => u.Settled v reclaimAfter

end Focus

namespace Making

def Fresh (u : View A) (id : TransactionId) (v : VersionRef) (o : WriteOwner) : Prop :=
  u.standing v = .fresh ∧ (u.versions v).reclaimed = false ∧ (u.versions v).sealed = false ∧
    (u.versions v).check = .ahead ∧ (u.versions v).owner = o ∧ (u.versions v).origin = id

/-- What a stage call may conclude about its version. -/
def Holds (u : View A) : Making → Prop
  | none => True
  | fresh id v o => Fresh u id v o
  | gated id v o => Fresh u id v o ∧ v ∈ u.stageReaders
  | unqueued s id v o | queued s id v o =>
      ((u.versions v).check = .ahead ∧ (u.versions v).owner = o ∧ u.OnlyAt s id v) ∧
        v ∈ u.stageReaders
  | unchecked s id v o => (u.versions v).check = .ahead ∧ (u.versions v).owner = o ∧ u.OnlyAt s id v
  | refused s id v => (u.versions v).check = .refused ∧ u.OnlyAt s id v
  | done v .passed => (u.versions v).check = .passed
  | done v .lost => u.standing v = .fresh ∧ (u.versions v).reclaimed = true
  | done v .refused => (u.versions v).check = .refused ∧ u.Unstaged v

end Making

/-- What holds of each version at every point of every run. -/
structure VersionView.Sane (live : Reservation A → Bool) (y : VersionView A) : Prop where
  held : y.standing.isHeld = true → y.sealed = true
  reclaimed : y.reclaimed = true → y.standing = .fresh ∨ y.standing.isSettled = true
  lost : y.standing = .lost → ∀ r ∈ y.replicas, live r.reservation = false

/-- What holds of the store at every point of every run. -/
structure View.Wellformed (u : View A) : Prop where
  committed : ∀ {s v}, u.committed s = some v → u.standing v = .published s
  published : ∀ {s v}, u.standing v = .published s → u.committed s = some v
  staged : ∀ {s a v}, u.active s = some a → a.phase = .staged v → u.standing v = .staged s ∧
    (u.versions v).owner = a.owner ∧ (u.versions v).origin = a.id
  base : ∀ {s a}, u.active s = some a → u.committed s = a.base
  withdrawn : ∀ {s v}, u.standing v = .withdrawn s → u.committed s = none ∧ u.active s = none ∧
    u.indexed s = true
  used : ∀ {s}, u.committed s ≠ none ∨ u.active s ≠ none → u.indexed s = true
  index : ∀ {i s}, u.lookup i = some s → s < u.slotCount ∧ (u.slots s).identity = i
  unborn : ∀ {v}, u.versionCount ≤ v → u.standing v = .unborn ∧ (u.versions v).sealed = false
  sane : ∀ v, (u.versions v).Sane u.live
  stageGate : u.stageWriter = true → u.stageReaders = 0
  queue : ∀ c ∈ u.pending, (u.standing c.pending).isNew = false
  empties : ∀ c ∈ u.empties, c.slot < u.slotCount ∧ (u.slots c.slot).identity = c.identity

/-- A reservation that may be given back at `now`: dead, removed by force, or of a
version that has left its slot and whose leases are over. -/
def View.Reclaimable (u : View A) (v : VersionRef) (r : Reservation A) (now : CatalogTick) : Prop :=
  u.live r = false ∨ u.standing v = .forced ∨
    ∃ reclaimAfter ≤ now, u.standing v = .left reclaimAfter

/-- The pins of a version are as they were seen, as long as it is committed. -/
def Notes.Holds (u : View A) (kind : CallKind) (notes : Notes) : Prop :=
  (∀ v, notes.unpinned = some v → (u.versions v).sealed = true ∧
    (u.versions v).hardPinned = false) ∧ ∀ v, notes.soft = some v → (u.versions v).sealed = true ∧
      ∃ now, kind = .collecting now ∧ (u.versions v).softPin ≤ now

/-- What a call's ghost says is so. -/
structure Ghost.Sound (u : View A) (x : Ghost A) : Prop where
  lock : ∀ s, x.focus.lock = some s → (u.slots s).locked = true ∧ s < u.slotCount ∧ x.MayLock s
  focus : x.focus.Holds u
  making : x.making.Holds u
  made : ∀ v, x.making.made = some v → u.standing v ≠ .unborn
  gate : x.gate = true → u.stepGate = true
  writing : x.writing = true → x.gate = true ∧ u.stageWriter = true ∧ x.spare = []
  drained : x.drained ≠ [] ∨ x.spare ≠ [] → x.gate = true
  seen : x.drained ++ x.spare ⊆ x.seen
  queue : ∀ c ∈ x.seen, (u.standing c.pending).isNew = false
  early : ∀ now, x.kind = .collecting now → x.expected = none → x.gate = true → x.early ⊆ u.pending
  ready : x.expected = none → x.due = []
  due : x.gate = true → x.due <+: u.pending
  expected : ∀ found, x.expected = some found → x.early ⊆ found ∧ ∃ now, x.kind = .collecting now ∧
    ∀ c ∈ found, c.deadline ≤ now → c ∈ x.due ∨ c ∈ x.spare ∨ u.Over c
  fence : ∀ session ∈ x.fence, u.sessions session = false
  dead : ∀ r ∈ x.dead, u.live r = false
  batch : ∀ e ∈ x.batch, u.Reclaimable e.1 e.2.1 e.2.2
  known : x.known ⊆ u.resolved
  owes : ∀ s ∈ x.owes, s < u.slotCount
  emptied : ∀ c, x.emptied = some c → c.slot < u.slotCount ∧ (u.slots c.slot).identity = c.identity
  uncounted : ∀ s b, x.uncounted = some (s, b) → s < u.slotCount
  astray : x.astray = false
  notes : x.notes.Holds u x.kind

/-- What a call of each kind may have in hand. -/
structure Ghost.Fitting (x : Ghost A) : Prop where
  hand : x.hand ≠ none → (∃ s id, x.kind = .committing s id) ∨ ∃ now, x.kind = .collecting now
  sealing : ∀ s a v, x.focus = .sealed s a v → x.kind = .committing s a.id
  staging : x.making ≠ .none → ∃ s, x.kind = .staging s
  gate : x.gate = true → x.kind = .revoking ∨ ∃ now, x.kind = .collecting now
  writing : x.writing = true → x.kind = .revoking

/-- What two calls do not share. -/
structure Ghost.Apart (x y : Ghost A) : Prop where
  lock : ∀ s, x.focus.lock = some s → y.focus.lock ≠ some s
  detached : ∀ v, x.focus.detached = some v → y.focus.detached ≠ some v
  made : ∀ v, x.making.made = some v → y.making.made ≠ some v
  gate : x.gate = true → y.gate = false

theorem Ghost.Apart.symm {x y : Ghost A} (h : x.Apart y) : y.Apart x where
  lock s hy hx := h.lock s hx hy
  detached v hy hx := h.detached v hx hy
  made v hy hx := h.made v hx hy
  gate hy := by
    by_contra hx
    rw [h.gate (Bool.not_eq_false _ ▸ hx)] at hy
    exact Bool.false_ne_true hy

/-- What a call with ghost `x` does to a version, as far as others may rely on it. -/
structure VersionRely (x : Ghost A) (u : View A) (v : VersionRef) (y y' : VersionView A) :
    Prop where
  sealed : y.sealed = true → y'.sealed = true ∧ y.lease ≤ y'.lease ∧ y'.number = y.number
  pins : y.sealed = true → y'.hardPinned = y.hardPinned ∧ y'.softPin ≤ y.softPin
  born : y.standing ≠ .unborn → y'.standing ≠ .unborn ∧ y'.owner = y.owner ∧ y'.origin = y.origin
  old : y.standing.isNew = false → y'.standing.isNew = false
  settled : y.standing.isSettled = true → y'.standing = y.standing
  gone : y.standing.isGone = true → y'.standing.isGone = true
  onSlot : ∀ s, y.standing.isAt s = true → y'.standing.isAt s = true ∨ y'.standing.isGone = true
  safe : ∀ deadline, y.Safe deadline → y'.Safe deadline
  replicas : y.standing ≠ .unborn → y'.replicas ⊆ y.replicas
  fresh : y.standing = .fresh → x.making.made ≠ some v →
    y'.standing = .fresh ∧ y'.reclaimed = y.reclaimed ∧ y'.sealed = y.sealed
  check : y.standing ≠ .unborn → x.making.made ≠ some v → y'.check = y.check
  detached : y.standing = .detached → x.focus.detached ≠ some v → y'.standing = .detached
  withdrawn : ∀ s, y.standing = .withdrawn s → x.focus.lock ≠ some s → y'.standing = .withdrawn s
  examined : ∀ s, u.committed s = some v → x.focus.lock ≠ some s → y'.replicas = y.replicas

/-- A version that has been published does not become young again. -/
theorem VersionRely.grown {x : Ghost A} {u : View A} {y y' : VersionView A}
    (h : VersionRely x u v y y') (hy : y.standing.isYoung = false) :
    y'.standing.isYoung = false := by
  have hcases : (∃ s, y.standing.isAt s = true) ∨ y.standing.isGone = true := by
    cases hstd : y.standing with
    | published s | withdrawn s => exact .inl ⟨s, decide_eq_true rfl⟩
    | unborn | fresh | staged =>
      rw [hstd] at hy
      cases hy
    | _ => exact .inr rfl
  have haft : (∃ s, y'.standing.isAt s = true) ∨ y'.standing.isGone = true := by
    rcases hcases with ⟨s, hat⟩ | hgone
    · exact (h.onSlot s hat).imp_left fun hat => ⟨s, hat⟩
    · exact .inr (h.gone hgone)
  generalize y'.standing = standing at haft
  cases standing with
  | unborn | fresh | staged => rcases haft with ⟨s, h⟩ | h <;> cases h
  | _ => rfl

/-- A slot that another call has not changed. -/
structure SlotKept (y y' : SlotView) : Prop where
  committed : y'.committed = y.committed
  active : y'.active = y.active
  nextTransactionId : y'.nextTransactionId = y.nextTransactionId
  nextVersionId : y'.nextVersionId = y.nextVersionId
  locked : y.locked = true → y'.locked = true

/-- What a call with ghost `x` does, as far as others may rely on it. -/
structure Rely (x : Ghost A) (u u' : View A) : Prop where
  slotCount : u.slotCount ≤ u'.slotCount
  identity : ∀ s, s < u.slotCount → (u'.slots s).identity = (u.slots s).identity
  versions : ∀ v, VersionRely x u v (u.versions v) (u'.versions v)
  slots : ∀ s, s < u.slotCount → x.focus.lock ≠ some s → SlotKept (u.slots s) (u'.slots s)
  indexed : ∀ s, s < u.slotCount → x.focus.lock ≠ some s → u'.indexed s = u.indexed s
  staged : ∀ s a v, u'.active s = some a → a.phase = .staged v →
    u.active s = some a ∨ u.standing v = .fresh
  readers : ∀ v, v ∈ u.stageReaders → x.making.made ≠ some v → v ∈ u'.stageReaders
  pending : x.gate = false → u.pending <+: u'.pending
  resolved : ∃ new, u'.resolved = u.resolved ++ new ∧ ∀ r ∈ new, x.focus.lock = some r.slot
  stepGate : x.gate = false → u.stepGate = true → u'.stepGate = true
  stageWriter : x.writing = false → u.stageWriter = true → u'.stageWriter = true
  sessions : ∀ session, u.sessions session = false → u'.sessions session = false
  live : ∀ r, u.live r = false → u'.live r = false

/-! ### What others keep -/

section Stable

variable {x y : Ghost A} {u u' : View A}

namespace Rely

section

variable (h : Rely x u u')
include h

theorem standing_of_settled (hv : (u.standing v).isSettled = true) :
    u'.standing v = u.standing v := (h.versions v).settled hv

theorem settled (hv : u.Settled v reclaimAfter) : u'.Settled v reclaimAfter := by
  have hstld : (u.standing v).isSettled = true := by
    rcases hv with hv | hv | hv <;> rw [hv] <;> rfl
  rwa [View.Settled, h.standing_of_settled hstld]

theorem staged_of_old (hold : (u.standing v).isNew = false) (ha : u'.active s = some a)
    (hph : a.phase = .staged v) :
    u.active s = some a := by
  rcases h.staged s a v ha hph with ha | hfrs
  · exact ha
  · rw [hfrs] at hold
    cases hold

theorem onlyAt {s : SlotRef} {id : TransactionId} (hv : u.OnlyAt s id v) : u'.OnlyAt s id v :=
  ⟨(h.versions v).old hv.1, fun s' a ha hph => hv.2 s' a (h.staged_of_old hv.1 ha hph) hph⟩

theorem unstaged (hv : u.Unstaged v) : u'.Unstaged v := by
  refine ⟨(h.versions v).old hv.1, fun s a ha hph => ?_⟩
  exact ((h.versions v).sealed (hv.2 s a (h.staged_of_old hv.1 ha hph) hph)).1

theorem isOver (hc : u.Over c) : u'.Over c := by
  refine ⟨(h.versions _).old hc.1, ?_⟩
  rintro ⟨a, ha, hid, hph⟩
  exact ((h.versions _).sealed (hc.2 ⟨a, h.staged_of_old hc.1 ha hph, hid, hph⟩)).1

theorem reclaimable (hv : u.Reclaimable v r now) : u'.Reclaimable v r now := by
  rcases hv with hdead | hfcd | ⟨reclaimAfter, hle, hleft⟩
  · exact .inl (h.live r hdead)
  · exact .inr (.inl ((h.standing_of_settled (hfcd ▸ rfl)).trans hfcd))
  · exact .inr (.inr ⟨reclaimAfter, hle, (h.standing_of_settled (hleft ▸ rfl)).trans hleft⟩)

theorem resolved_subset : u.resolved ⊆ u'.resolved := by
  obtain ⟨_, hnew, -⟩ := h.resolved
  rw [hnew]
  exact List.subset_append_left _ _

end

section Slot

variable {s : SlotRef}

variable (h : Rely x u u') (hlt : s < u.slotCount) (hne : x.focus.lock ≠ some s)
include h hlt hne

theorem free (hfree : u.Free s next) : u'.Free s next :=
  ⟨(h.indexed s hlt hne).trans hfree.1, (h.slots s hlt hne).active.trans hfree.2.1,
    (h.slots s hlt hne).nextTransactionId.trans hfree.2.2⟩

theorem ready (hrdy : u.Ready s a v) : u'.Ready s a v :=
  ⟨(h.slots s hlt hne).active.trans hrdy.1, hrdy.2.1, (h.slots s hlt hne).committed.trans hrdy.2.2⟩

theorem nextNumber (hnext : u.NextNumber s number) : u'.NextNumber s number := by
  refine ⟨hnext.1.trans_eq (h.slots s hlt hne).nextVersionId.symm, fun r hr hslot => ?_⟩
  obtain ⟨_, hnew, hlock⟩ := h.resolved
  rw [hnew] at hr
  rcases List.mem_append.mp hr with hr | hr
  · exact hnext.2 r hr hslot
  · exact absurd (hslot ▸ hlock r hr) hne

end Slot

end Rely

/-- A call's focus survives what another call does. -/
theorem Focus.Holds.stable {f : Focus A} (h : Rely x u u') (hf : f.Holds u)
    (hlock : ∀ s, f.lock = some s → s < u.slotCount ∧ x.focus.lock ≠ some s)
    (hdet : ∀ v, f.detached = some v → x.focus.detached ≠ some v) : f.Holds u' := by
  have hslot : ∀ s, f.lock = some s → SlotKept (u.slots s) (u'.slots s) :=
    fun s hs => h.slots s (hlock s hs).1 (hlock s hs).2
  cases f with
  | none | locked s => trivial
  | saw v => exact ((h.versions v).sealed hf).1
  | granted v deadline | noted v deadline =>
    obtain ⟨hseal, hle, -⟩ := (h.versions v).sealed hf.1
    exact ⟨hseal, hf.2.trans hle⟩
  | returned v deadline => exact (h.versions v).safe deadline hf
  | replaced old => exact (h.versions old).detached hf (hdet old rfl)
  | leaving v reclaimAfter | closing s v reclaimAfter => exact h.settled hf
  | kept s => exact (h.indexed s (hlock s rfl).1 (hlock s rfl).2).trans hf
  | free s next => exact h.free (hlock s rfl).1 (hlock s rfl).2 hf
  | based s next base =>
    exact ⟨h.free (hlock s rfl).1 (hlock s rfl).2 hf.1, (hslot s rfl).committed.trans hf.2⟩
  | busy s a | vacant s => exact (hslot s rfl).active.trans hf
  | ready s a v => exact h.ready (hlock s rfl).1 (hlock s rfl).2 hf
  | numbered s a v number =>
    exact ⟨h.ready (hlock s rfl).1 (hlock s rfl).2 hf.1, h.nextNumber (hlock s rfl).1 (hlock s rfl).2 hf.2⟩
  | sealed s a v =>
    obtain ⟨hseal, -, hnum⟩ := (h.versions v).sealed hf.2.1
    refine ⟨h.ready (hlock s rfl).1 (hlock s rfl).2 hf.1, hseal, ?_⟩
    rw [hnum]
    exact h.nextNumber (hlock s rfl).1 (hlock s rfl).2 hf.2.2
  | replacing s base =>
    intro old hbase
    exact (h.versions old).detached (hf old hbase) (hdet old hbase)
  | hollow s | pointed s v => exact (hslot s rfl).committed.trans hf
  | idle s v => exact ⟨(hslot s rfl).active.trans hf.1, (hslot s rfl).committed.trans hf.2⟩
  | examined s v replicas =>
    exact ⟨(hslot s rfl).committed.trans hf.1, ((h.versions v).examined s hf.1 (hlock s rfl).2).trans hf.2⟩
  | condemned s v replicas =>
    exact ⟨(hslot s rfl).active.trans hf.1, (hslot s rfl).committed.trans hf.2.1,
      ((h.versions v).examined s hf.2.1 (hlock s rfl).2).trans hf.2.2⟩
  | taken s v => exact (h.versions v).withdrawn s hf (hlock s rfl).2

/-- What a stage call knows of its version survives what another call does. -/
theorem Making.Holds.stable {m : Making} (h : Rely x u u') (hm : m.Holds u)
    (hborn : ∀ v, m.made = some v → u.standing v ≠ .unborn)
    (hmade : ∀ v, m.made = some v → x.making.made ≠ some v) : m.Holds u' := by
  have hchk : ∀ v, m.made = some v → (u'.versions v).check = (u.versions v).check :=
    fun v hv => (h.versions v).check (hborn v hv) (hmade v hv)
  have hownr : ∀ v, m.made = some v → (u'.versions v).owner = (u.versions v).owner ∧
      (u'.versions v).origin = (u.versions v).origin :=
    fun v hv => ((h.versions v).born (hborn v hv)).2
  have hfrs : ∀ id v o, m.made = some v → Fresh u id v o → Fresh u' id v o := by
    rintro id v o hv ⟨hstd, hrcl, hseal, hahead, ho, hid⟩
    obtain ⟨hstd', hsame, hsame'⟩ := (h.versions v).fresh hstd (hmade v hv)
    exact ⟨hstd', hsame.trans hrcl, hsame'.trans hseal, (hchk v hv).trans hahead,
      (hownr v hv).1.trans ho, (hownr v hv).2.trans hid⟩
  have hreaders : ∀ v, m.made = some v → v ∈ u.stageReaders → v ∈ u'.stageReaders :=
    fun v hv hmem => h.readers v hmem (hmade v hv)
  cases m with
  | none => trivial
  | fresh id v o => exact hfrs id v o rfl hm
  | gated id v o => exact ⟨hfrs id v o rfl hm.1, hreaders v rfl hm.2⟩
  | unqueued s id v o | queued s id v o =>
    obtain ⟨⟨hahead, ho, honly⟩, hmem⟩ := hm
    exact ⟨⟨(hchk v rfl).trans hahead, (hownr v rfl).1.trans ho, h.onlyAt honly⟩, hreaders v rfl hmem⟩
  | unchecked s id v o =>
    exact ⟨(hchk v rfl).trans hm.1, (hownr v rfl).1.trans hm.2.1, h.onlyAt hm.2.2⟩
  | refused s id v => exact ⟨(hchk v rfl).trans hm.1, h.onlyAt hm.2⟩
  | done v outcome =>
    cases outcome with
    | passed => exact (hchk v rfl).trans hm
    | lost =>
      obtain ⟨hstd, hsame, -⟩ := (h.versions v).fresh hm.1 (hmade v rfl)
      exact ⟨hstd, hsame.trans hm.2⟩
    | refused => exact ⟨(hchk v rfl).trans hm.1, h.unstaged hm.2⟩

theorem Notes.Holds.stable {notes : Notes} (h : Rely x u u') (hnotes : notes.Holds u kind) :
    notes.Holds u' kind := by
  refine ⟨fun v hv => ?_, fun v hv => ?_⟩
  · obtain ⟨hseal, hpinned⟩ := hnotes.1 v hv
    exact ⟨((h.versions v).sealed hseal).1, ((h.versions v).pins hseal).1.trans hpinned⟩
  · obtain ⟨hseal, now, hkind, hle⟩ := hnotes.2 v hv
    exact ⟨((h.versions v).sealed hseal).1, now, hkind, ((h.versions v).pins hseal).2.trans hle⟩

theorem Ghost.Sound.stable (hy : y.Sound u) (hx : x.Sound u) (happ : x.Apart y) (h : Rely x u u') :
    y.Sound u' where
  lock s hs := by
    have hne : x.focus.lock ≠ some s := fun hxs => happ.lock s hxs hs
    obtain ⟨hlck, hlt, hmay⟩ := hy.lock s hs
    exact ⟨(h.slots s hlt hne).locked hlck, hlt.trans_le h.slotCount, hmay⟩
  focus := hy.focus.stable h (fun s hs => ⟨(hy.lock s hs).2.1, fun hxs => happ.lock s hxs hs⟩)
    fun v hv hxv => happ.detached v hxv hv
  making := hy.making.stable h hy.made fun v hv hxv => happ.made v hxv hv
  made v hv := ((h.versions v).born (hy.made v hv)).1
  gate hgate := h.stepGate (happ.symm.gate hgate) (hy.gate hgate)
  writing hwrt := by
    obtain ⟨hgate, hwr, hspr⟩ := hy.writing hwrt
    have hxwriting : x.writing = false := by
      by_contra hxw
      have hxgate := (hx.writing (Bool.not_eq_false _ ▸ hxw)).1
      rw [happ.gate hxgate] at hgate
      exact Bool.false_ne_true hgate
    exact ⟨hgate, h.stageWriter hxwriting hwr, hspr⟩
  drained := hy.drained
  seen := hy.seen
  queue c hc := (h.versions _).old (hy.queue c hc)
  early now hkind hexp hgate :=
    List.Subset.trans (hy.early now hkind hexp hgate) (h.pending (happ.symm.gate hgate)).subset
  ready := hy.ready
  due hgate := (hy.due hgate).trans (h.pending (happ.symm.gate hgate))
  expected found hfnd := by
    obtain ⟨herly, now, hkind, hdue⟩ := hy.expected found hfnd
    refine ⟨herly, now, hkind, fun c hc hle => ?_⟩
    exact (hdue c hc hle).imp_right fun hc => hc.imp_right h.isOver
  fence session hmem := h.sessions session (hy.fence session hmem)
  dead r hmem := h.live r (hy.dead r hmem)
  batch e hmem := h.reclaimable (hy.batch e hmem)
  known := List.Subset.trans hy.known h.resolved_subset
  owes s hs := (hy.owes s hs).trans_le h.slotCount
  emptied c hc := by
    obtain ⟨hlt, hiden⟩ := hy.emptied c hc
    exact ⟨hlt.trans_le h.slotCount, (h.identity c.slot hlt).trans hiden⟩
  uncounted s b hs := (hy.uncounted s b hs).trans_le h.slotCount
  astray := hy.astray
  notes := hy.notes.stable h

end Stable

end Cakemaster.Object
