import Cakemaster.Object.Counters
import Cakemaster.Object.Eviction
import Cakemaster.Tenant.Types

/-!
# The state of the object store

Slots and versions are shared by reference in the source (`Arc`, `Weak`); here they
live in two heaps and a reference is a position. A strong reference keeps a version
until `reclaimed` is set; a slot outlives its index entry only in local variables.
-/

namespace Cakemaster.Object

open Machine Segment Tenant

abbrev SlotRef := ℕ

abbrev VersionRef := ℕ

structure ReplicaLease (A : UnitAllocator) where
  id : ReplicaId
  reservation : Reservation A

/-- The storage variants of a replica set differ in representation only. -/
abbrev ReplicaSet (A : UnitAllocator) := List (ReplicaLease A)

namespace ReplicaSet

variable {A : UnitAllocator}

def reservations (replicas : ReplicaSet A) : List (Reservation A) := replicas.map (·.reservation)

def reservedBytes (replicas : ReplicaSet A) : ℕ :=
  replicas.foldl (fun total replica => Word.satAdd 64 total replica.reservation.reservedBytes) 0

/-- `direct_replica_class`: the class of the first replica. -/
def directReplicaClass (replicas : ReplicaSet A) : Option ReplicaClass :=
  replicas.head?.map (·.reservation.segment.replicaClass)

end ReplicaSet

inductive ChargePhase
  | reserved
  | committed
  | retiring
  | released
deriving DecidableEq

structure TenantQuotaCharge where
  entry : TenantRef
  phase : ChargePhase
deriving DecidableEq

structure AccessControl where
  leaseUntil : CatalogTick
  recent : Bool
  softPinUntil : CatalogTick
  hardPinned : Bool
deriving DecidableEq

structure CommittedVersion where
  id : VersionId
  commit : ObjectCommit
  access : AccessControl
deriving DecidableEq

/-- How the stage call that made a version has come to its last look at the session
guard. This is history: no program reads it. -/
inductive AdmissionCheck
  | ahead
  | passed
  | refused
deriving DecidableEq

/-- Where a version is in its life. This is history: no program reads it. A version
has `left` its slot for good with the tick from which it may be reclaimed, unless a
forced remove took it (`forced`) or all its replicas had been seen dead (`lost`). -/
inductive Standing
  | unborn
  | fresh
  | staged (s : SlotRef)
  | published (s : SlotRef)
  | withdrawn (s : SlotRef)
  | detached
  | left (reclaimAfter : CatalogTick)
  | forced
  | lost
deriving DecidableEq

/-- A version with its record. `reclaimed` is set when its last owner gives it up. -/
structure ObjectVersion (A : UnitAllocator) where
  origin : TransactionId
  owner : WriteOwner
  identity : ObjectIdentity
  content : ObjectContent
  replicas : ReplicaSet A
  reservedBytes : ℕ
  accounting : Option TenantQuotaCharge
  committed : Option CommittedVersion
  reclaimed : Bool
  admissionCheck : AdmissionCheck
  standing : Standing

inductive TransactionPhase
  | claimed
  | staged (pending : VersionRef)
deriving DecidableEq

structure ActiveTransaction where
  id : TransactionId
  owner : WriteOwner
  base : Option VersionRef
  pins : ResolvedObjectPinRequest
  phase : TransactionPhase
deriving DecidableEq

/-- A slot: the committed pointer, the control data and its mutex. No program reads
`counted`, what the number of slots owes to this one. -/
structure ObjectSlot where
  identity : ObjectIdentity
  committed : Option VersionRef
  nextTransactionId : ℕ
  nextVersionId : ℕ
  active : Option ActiveTransaction
  locked : Bool
  counted : ℤ
deriving DecidableEq

structure GcCandidate where
  slot : SlotRef
  version : VersionRef
deriving DecidableEq

structure PendingCandidate where
  slot : SlotRef
  pending : VersionRef
  transactionId : TransactionId
  deadline : CatalogTick
deriving DecidableEq

structure SoftPinCandidate where
  candidate : GcCandidate
  deadline : CatalogTick
deriving DecidableEq

structure EmptySlotCandidate where
  identity : ObjectIdentity
  slot : SlotRef
  deadline : CatalogTick
deriving DecidableEq

structure RetiredObject where
  version : VersionRef
  reservedBytes : ℕ
  reclaimAfter : CatalogTick
deriving DecidableEq

/-- The eviction queues. `hand` holds the candidates that running calls own. -/
structure EvictionQueues where
  young : List GcCandidate
  protectedQueue : List GcCandidate
  softPins : List SoftPinCandidate
  hand : List GcCandidate
deriving DecidableEq

/-- The pending queue and the stage gate, a read-write lock. A reader of the gate is
named by the version it stages. -/
structure PendingQueue where
  candidates : List PendingCandidate
  stageReaders : List VersionRef
  stageWriter : Bool
deriving DecidableEq

structure CatalogIndex where
  entries : AList fun _ : ObjectIdentity => SlotRef
  slots : Counter

/-- A reservation that a collector step at `now` has given back to its allocator, and
whether its segment was live then. -/
structure Release (A : UnitAllocator) where
  version : VersionRef
  reservation : Reservation A
  now : CatalogTick
  live : Bool

/-- What callers own between calls: read handles and quota guards. -/
structure Custody where
  handles : List VersionRef
  guards : List (TenantRef × ℕ)

/-- The end of a staged transaction: committed as a version, or aborted by its writer,
by a timeout or by a revocation. -/
structure Resolution where
  slot : SlotRef
  id : TransactionId
  version : VersionRef
  outcome : Option VersionId
deriving DecidableEq

/-- History that no program reads: the reservations given back, the transactions begun
and resolved, in this order. -/
structure History (A : UnitAllocator) where
  released : List (Release A)
  begun : List (SlotRef × TransactionId)
  resolved : List Resolution
  chargeFault : Bool

structure World (A : UnitAllocator) where
  pool : SegmentPool A
  activeSessions : ClientSession → Bool
  slots : SlotRef → ObjectSlot
  slotCount : ℕ
  versions : VersionRef → ObjectVersion A
  versionCount : ℕ
  index : CatalogIndex
  lifecycle : LifecycleCounters
  eviction : EvictionQueues
  pending : PendingQueue
  retired : List RetiredObject
  emptySlots : List EmptySlotCandidate
  stepGate : Bool
  reclaim : ReclaimDebt
  liveness : LivenessSweep
  observedSegmentEpoch : ℕ
  memoryEviction : MemoryEvictionState
  registry : TenantRegistry
  custody : Custody
  history : History A

namespace World

variable {A : UnitAllocator}

/-! ### Components -/

def poolVar : Lens (World A) (SegmentPool A) :=
  ⟨pool, fun v w => { w with pool := v }, fun _ _ => rfl, fun _ => rfl, fun _ _ _ => rfl⟩

def lifecycleVar : Lens (World A) LifecycleCounters :=
  ⟨lifecycle, fun v w => { w with lifecycle := v }, fun _ _ => rfl, fun _ => rfl, fun _ _ _ => rfl⟩

def reclaimVar : Lens (World A) ReclaimDebt :=
  ⟨reclaim, fun v w => { w with reclaim := v }, fun _ _ => rfl, fun _ => rfl, fun _ _ _ => rfl⟩

def livenessVar : Lens (World A) LivenessSweep :=
  ⟨liveness, fun v w => { w with liveness := v }, fun _ _ => rfl, fun _ => rfl, fun _ _ _ => rfl⟩

def registryVar : Lens (World A) TenantRegistry :=
  ⟨registry, fun v w => { w with registry := v }, fun _ _ => rfl, fun _ => rfl, fun _ _ _ => rfl⟩

def accountVar (entry : TenantRef) : Lens (World A) QuotaAccount :=
  registryVar.comp
    ⟨fun r => (r.entries entry).memory,
      fun v r => { r with
        entries := Function.update r.entries entry { r.entries entry with memory := v } },
      fun _ _ => by simp, fun _ => by simp, fun _ _ _ => by simp⟩

/-! ### Slots and versions -/

def modifySlot (s : SlotRef) (f : ObjectSlot → ObjectSlot) (w : World A) : World A :=
  { w with slots := Function.update w.slots s (f (w.slots s)) }

def modifyVersion (v : VersionRef) (f : ObjectVersion A → ObjectVersion A) (w : World A) :
    World A :=
  { w with versions := Function.update w.versions v (f (w.versions v)) }

def setCommitted (s : SlotRef) (committed : Option VersionRef) : World A → World A :=
  modifySlot s fun x => { x with committed }

def lookupSlot (w : World A) (identity : ObjectIdentity) : Option SlotRef :=
  w.index.entries.lookup identity

def indexed (w : World A) (s : SlotRef) : Bool := w.lookupSlot (w.slots s).identity = some s

/-- The access control of a version; it is read of published versions only. -/
def access (w : World A) (v : VersionRef) : AccessControl :=
  ((w.versions v).committed.map (·.access)).getD ⟨0, false, 0, false⟩

def modifyAccess (v : VersionRef) (f : AccessControl → AccessControl) : World A → World A :=
  modifyVersion v fun version =>
    { version with committed := version.committed.map fun c => { c with access := f c.access } }

def leaseUntil (w : World A) (v : VersionRef) : CatalogTick := (w.access v).leaseUntil

def standing (w : World A) (v : VersionRef) : Standing := (w.versions v).standing

def activeId (w : World A) (s : SlotRef) : TransactionId := ((w.slots s).active.map (·.id)).getD 0

def versionId (w : World A) (v : VersionRef) : VersionId :=
  ((w.versions v).committed.map (·.id)).getD 0

def setStanding (v : VersionRef) (standing : Standing) : World A → World A :=
  modifyVersion v fun version => { version with standing }

/-! ### History -/

def logBegun (s : SlotRef) (id : TransactionId) (w : World A) : World A :=
  { w with history := { w.history with begun := w.history.begun ++ [(s, id)] } }

def logResolved (resolution : Resolution) (w : World A) : World A :=
  { w with history := { w.history with resolved := w.history.resolved ++ [resolution] } }

/-! ### Eviction queues -/

def queue (w : World A) : Generation → List GcCandidate
  | .young => w.eviction.young
  | .protectedQueue => w.eviction.protectedQueue

def setQueue (generation : Generation) (queue : List GcCandidate) (w : World A) : World A :=
  match generation with
  | .young => { w with eviction := { w.eviction with young := queue } }
  | .protectedQueue => { w with eviction := { w.eviction with protectedQueue := queue } }

def setHand (hand : List GcCandidate) (w : World A) : World A :=
  { w with eviction := { w.eviction with hand } }

/-- The head of a queue goes to a hand. -/
def popCandidate (generation : Generation) (w : World A) : Option GcCandidate × World A :=
  match w.queue generation with
  | [] => (none, w)
  | c :: rest => (some c, (w.setQueue generation rest).setHand (c :: w.eviction.hand))

/-- A candidate goes from a hand to the end of a queue. -/
def pushCandidate (generation : Generation) (c : GcCandidate) (w : World A) : World A :=
  (w.setQueue generation (w.queue generation ++ [c])).setHand (w.eviction.hand.erase c)

end World

end Cakemaster.Object
