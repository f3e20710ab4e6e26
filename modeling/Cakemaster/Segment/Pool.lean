import Cakemaster.Segment.Allocator
import Cakemaster.Segment.Types
import Mathlib.Data.List.AList
import Mathlib.Data.List.Sort

/-!
# The segment pool

Entries are shared by reference in the source (`Arc<SegmentEntry>`), and a handle
or a reservation keeps its entry alive after the catalog has dropped it. Here the
pool owns a list of all entries ever attached and a reference is a position in
it. Each operation is the source's section under the catalog or state lock;
`none` stands for a panic.
-/

namespace Cakemaster.Segment

open Machine

abbrev EntryRef := ℕ

/-- The liveness flag of one mounted incarnation, and how many leases share it. -/
structure SegmentLifetime where
  live : Bool
  activeLeases : ℕ

structure SegmentEntry (A : UnitAllocator) where
  spec : SegmentSpec
  state : SegmentState
  allocator : ByteAllocator A
  lifetime : SegmentLifetime

/-- A reserved range. Its allocation returns to, and its lease observes, the
entry it was reserved from. -/
structure Reservation (A : UnitAllocator) where
  entry : EntryRef
  allocation : OffsetAllocationHandle A
  segment : SegmentSpec
  region : MemoryRegion

namespace Reservation

variable {A : UnitAllocator}

def requestedBytes (r : Reservation A) : ℕ := r.allocation.requestedBytes

def reservedBytes (r : Reservation A) : ℕ := r.allocation.reservedBytes

end Reservation

structure SegmentSpaceStats where
  capacityBytes : ℕ
  usedBytes : ℕ
  availableBytes : ℕ
  largestFreeRegionBytes : ℕ
deriving DecidableEq

structure SegmentStats where
  space : SegmentSpaceStats
  activeAllocations : ℕ
  state : SegmentState
deriving DecidableEq

namespace SegmentEntry

variable {A : UnitAllocator}

def new (spec : SegmentSpec) (allocator : ByteAllocator A) : SegmentEntry A where
  spec := spec
  state := .accepting
  allocator := allocator
  lifetime := { live := true, activeLeases := 0 }

def isAccepting (e : SegmentEntry A) : Bool := e.state.isAccepting

/-- `reserve` on the entry at `ref`. On an overflowing address the allocation
that was just made is dropped again. -/
def reserve (e : SegmentEntry A) (ref : EntryRef) (bytes : ℕ) :
    Option (Except ReserveError (Reservation A) × SegmentEntry A) :=
  let id := e.spec.identity.id
  if bytes = 0 then some (.error .zeroSize, e)
  else if !e.allocator.maySatisfy bytes then some (.error (.outOfSpace id), e)
  else if !e.isAccepting then some (.error (.notAccepting id), e)
  else
    match e.allocator.allocateAfterPrecheck bytes with
    | (none, allocator) => some (.error (.outOfSpace id), { e with allocator })
    | (some allocation, allocator) =>
      match Word.checkedAdd 64 e.spec.region.base allocation.offset with
      | none => do
        let allocator ← allocator.release allocation
        some (.error (.addressOverflow id), { e with allocator })
      | some address =>
        some (.ok { entry := ref, allocation, segment := e.spec, region := ⟨address, bytes⟩ },
          { e with
            allocator
            lifetime := { e.lifetime with activeLeases := e.lifetime.activeLeases + 1 } })

def quiesce (e : SegmentEntry A) : SegmentEntry A :=
  if e.isAccepting then { e with state := .quiesced } else e

def reactivate (e : SegmentEntry A) : SegmentEntry A :=
  if e.state = .quiesced then { e with state := .accepting } else e

/-- Fences this incarnation whatever its state. -/
def invalidate (e : SegmentEntry A) : SegmentEntry A :=
  { e with lifetime := { e.lifetime with live := false }, state := .removed }

def prepareRemove (e : SegmentEntry A) : Except SegmentStateError (SegmentEntry A) :=
  match e.state with
  | .accepting => .error (.stillAccepting e.spec.identity.id)
  | .quiesced => .ok e.invalidate
  | .removed => .ok e

/-- A reservation of this entry is dropped: its range is freed, then its lease ends. -/
def drop (e : SegmentEntry A) (allocation : OffsetAllocationHandle A) :
    Option (SegmentEntry A) := do
  let allocator ← e.allocator.release allocation
  some { e with
    allocator
    lifetime := { e.lifetime with activeLeases := e.lifetime.activeLeases - 1 } }

def stats (e : SegmentEntry A) : SegmentStats :=
  let stats := e.allocator.stats
  { space := ⟨stats.capacity, stats.usedBytes, stats.availableBytes, stats.largestFreeRegion⟩
    activeAllocations := e.lifetime.activeLeases
    state := e.state }

end SegmentEntry

structure SegmentHandle where
  poolId : ℕ
  entry : EntryRef
deriving DecidableEq

inductive AttachOutcome
  | attached (segment : SegmentHandle)
  | alreadyAttached (segment : SegmentHandle)
deriving DecidableEq

def AttachOutcome.isNew : AttachOutcome → Bool
  | attached _ => true
  | alreadyAttached _ => false

/-- The pool with its catalog: every entry ever attached, the mounted segments by
id, their ids by owner, and the accepting candidates sorted by id. -/
structure SegmentPool (A : UnitAllocator) where
  poolId : ℕ
  config : SegmentPoolConfig
  entries : List (SegmentEntry A)
  segments : AList fun _ : SegmentId => EntryRef
  segmentsByOwner : AList fun _ : ClientId => List SegmentId
  directGeneration : ℕ
  direct : List EntryRef
  directCapacityEpoch : ℕ
  invalidationEpoch : ℕ

namespace SegmentPool

variable {A : UnitAllocator}

def empty (A : UnitAllocator) (poolId : ℕ) (config : SegmentPoolConfig) : SegmentPool A where
  poolId := poolId
  config := config
  entries := []
  segments := ∅
  segmentsByOwner := ∅
  directGeneration := 0
  direct := []
  directCapacityEpoch := 0
  invalidationEpoch := 0

/-- `with_config`; the pool id is the next value of a process-wide counter. -/
def withConfig (A : UnitAllocator) (poolId : ℕ) (config : SegmentPoolConfig) :
    Except PoolConfigError (SegmentPool A) :=
  let maxNodes := config.maxAllocatorNodesPerSegment
  if minAllocatorNodesPerSegment ≤ maxNodes ∧ maxNodes < maxAllocatorNodesPerSegmentExclusive then
    .ok (empty A poolId config)
  else .error ⟨maxNodes⟩

/-- The default configuration is valid, so `new` does not panic. -/
theorem withConfig_default (A : UnitAllocator) (poolId : ℕ) :
    withConfig A poolId .default = .ok (empty A poolId .default) := by
  simp [withConfig, SegmentPoolConfig.default, minAllocatorNodesPerSegment,
    maxAllocatorNodesPerSegmentExclusive, Word.maxOf]

def handle (p : SegmentPool A) (ref : EntryRef) : SegmentHandle := ⟨p.poolId, ref⟩

def modifyEntry (p : SegmentPool A) (ref : EntryRef) (f : SegmentEntry A → SegmentEntry A) :
    SegmentPool A :=
  { p with entries := p.entries.modify ref f }

def mountedRefs (p : SegmentPool A) : List EntryRef := p.segments.entries.map (·.2)

def mountedEntries (p : SegmentPool A) : List (SegmentEntry A) :=
  p.mountedRefs.filterMap (p.entries[·]?)

def acceptingAt (p : SegmentPool A) (ref : EntryRef) : Bool :=
  (p.entries[ref]?).any (·.isAccepting)

def idAt (p : SegmentPool A) (ref : EntryRef) : SegmentId :=
  ((p.entries[ref]?).map (·.spec.identity.id)).getD ⟨0, 0⟩

def rebuildIndexes (p : SegmentPool A) : SegmentPool A :=
  let direct := (p.mountedRefs.filter p.acceptingAt).insertionSort
    (fun a b => (p.idAt a).le (p.idAt b))
  if direct = p.direct then p
  else { p with direct, directGeneration := Word.wrapAdd 64 p.directGeneration 1 }

/-- The first mounted segment in the same address space that meets the range. -/
def findOverlap (spec : SegmentSpec) (stop : ℕ) : List SegmentSpec → Option (Option SegmentId)
  | [] => some none
  | existing :: rest =>
    if existing.identity.owner = spec.identity.owner ∧ existing.transport = spec.transport then do
      let existingStop ← existing.region.stop
      if spec.region.base < existingStop ∧ existing.region.base < stop then
        some (some existing.identity.id)
      else findOverlap spec stop rest
    else findOverlap spec stop rest

def catalogAttach (p : SegmentPool A) (spec : SegmentSpec) :
    Option (Except AttachError (AttachOutcome × SegmentPool A)) :=
  match p.segments.lookup spec.identity.id with
  | some ref =>
    if (p.entries[ref]?).map (·.spec) = some spec then
      some (.ok (.alreadyAttached (p.handle ref), p))
    else some (.error (.conflictingSegmentId spec.identity.id))
  | none =>
    match spec.region.stop with
    | none => some (.error .addressOverflow)
    | some stop => do
      match ← findOverlap spec stop (p.mountedEntries.map (·.spec)) with
      | some existing => some (.error (.overlappingAddressRange existing))
      | none =>
        let allocator := ByteAllocator.new A spec.region.size p.config.maxAllocatorNodesPerSegment
        let ref := p.entries.length
        let owner := spec.identity.owner
        let owned := (p.segmentsByOwner.lookup owner).getD []
        let mounted := { p with
          entries := p.entries ++ [SegmentEntry.new spec allocator]
          segments := p.segments.insert spec.identity.id ref
          segmentsByOwner := p.segmentsByOwner.insert owner (spec.identity.id :: owned) }
        some (.ok (.attached (p.handle ref), mounted.rebuildIndexes))

def ownedEntry (p : SegmentPool A) (owner : ClientId) (id : SegmentId) :
    Except SegmentStateError (EntryRef × SegmentEntry A) :=
  match p.segments.lookup id with
  | none => .error (.notFound id)
  | some ref =>
    match p.entries[ref]? with
    | none => .error (.notFound id)
    | some e =>
      if e.spec.identity.owner ≠ owner then
        .error (.ownerMismatch id e.spec.identity.owner owner)
      else .ok (ref, e)

def catalogQuiesce (p : SegmentPool A) (owner : ClientId) (id : SegmentId) :
    Except SegmentStateError (SegmentPool A) := do
  let (ref, _) ← p.ownedEntry owner id
  .ok (p.modifyEntry ref (·.quiesce)).rebuildIndexes

def catalogReactivate (p : SegmentPool A) (owner : ClientId) (id : SegmentId) :
    Except SegmentStateError (SegmentPool A) := do
  let (ref, _) ← p.ownedEntry owner id
  .ok (p.modifyEntry ref (·.reactivate)).rebuildIndexes

/-- Ownership of the whole batch is checked before any segment is published. -/
def catalogReactivateMany (p : SegmentPool A) (owner : ClientId) (ids : List SegmentId) :
    Except SegmentStateError (SegmentPool A) := do
  let owned ← ids.mapM (p.ownedEntry owner)
  .ok (owned.foldl (fun p owned => p.modifyEntry owned.1 (·.reactivate)) p).rebuildIndexes

def removeOwnerSegment (p : SegmentPool A) (owner : ClientId) (id : SegmentId) : SegmentPool A :=
  match p.segmentsByOwner.lookup owner with
  | none => p
  | some ids =>
    if ids.erase id = [] then { p with segmentsByOwner := p.segmentsByOwner.erase owner }
    else { p with segmentsByOwner := p.segmentsByOwner.insert owner (ids.erase id) }

def catalogRemove (p : SegmentPool A) (owner : ClientId) (id : SegmentId) :
    Except SegmentStateError (SegmentPool A) := do
  let (ref, e) ← p.ownedEntry owner id
  let e ← e.prepareRemove
  let removed := { p.modifyEntry ref (fun _ => e) with segments := p.segments.erase id }
  .ok (removed.removeOwnerSegment owner id).rebuildIndexes

/-- Detaches and invalidates the listed segments of a fenced client. -/
def invalidateIds (p : SegmentPool A) : List SegmentId → Option (SegmentPool A)
  | [] => some p
  | id :: rest => do
    let ref ← p.segments.lookup id
    invalidateIds { p.modifyEntry ref (·.invalidate) with segments := p.segments.erase id } rest

def invalidateEach (p : SegmentPool A) (invalidated : ℕ) :
    List ClientId → Option (ℕ × SegmentPool A)
  | [] => some (invalidated, p)
  | owner :: rest =>
    match p.segmentsByOwner.lookup owner with
    | none => invalidateEach p invalidated rest
    | some ids => do
      let p ← invalidateIds { p with segmentsByOwner := p.segmentsByOwner.erase owner } ids
      invalidateEach p (invalidated + ids.length) rest

def bumpDirectCapacityEpoch (p : SegmentPool A) : SegmentPool A :=
  { p with directCapacityEpoch := Word.wrapAdd 64 p.directCapacityEpoch 1 }

def bumpInvalidationEpoch (p : SegmentPool A) : SegmentPool A :=
  { p with invalidationEpoch := Word.wrapAdd 64 p.invalidationEpoch 1 }

def attach (p : SegmentPool A) (spec : SegmentSpec) :
    Option (Except AttachError AttachOutcome × SegmentPool A) :=
  match validateSpec spec with
  | .error err => some (.error err, p)
  | .ok () => do
    match ← p.catalogAttach spec with
    | .error err => some (.error err, p)
    | .ok (outcome, p) => some (.ok outcome, p.bumpDirectCapacityEpoch)

/-- A new segment is mounted hidden from placement; an existing mount keeps its state. -/
def attachQuiesced (p : SegmentPool A) (spec : SegmentSpec) :
    Option (Except AttachError AttachOutcome × SegmentPool A) :=
  match validateSpec spec with
  | .error err => some (.error err, p)
  | .ok () => do
    match ← p.catalogAttach spec with
    | .error err => some (.error err, p)
    | .ok (outcome, attached) =>
      if outcome.isNew then
        let hidden ← (attached.catalogQuiesce spec.identity.owner spec.identity.id).toOption
        some (.ok outcome, hidden.bumpDirectCapacityEpoch)
      else some (.ok outcome, attached.bumpDirectCapacityEpoch)

/-- `update_direct_catalog` around an operation that returns nothing. -/
def updateDirectCatalog (p : SegmentPool A)
    (operation : SegmentPool A → Except SegmentStateError (SegmentPool A)) :
    Except SegmentStateError Unit × SegmentPool A :=
  match operation p with
  | .error err => (.error err, p)
  | .ok p => (.ok (), p.bumpDirectCapacityEpoch)

def quiesce (p : SegmentPool A) (owner : ClientId) (id : SegmentId) :
    Except SegmentStateError Unit × SegmentPool A :=
  p.updateDirectCatalog (·.catalogQuiesce owner id)

def reactivate (p : SegmentPool A) (owner : ClientId) (id : SegmentId) :
    Except SegmentStateError Unit × SegmentPool A :=
  p.updateDirectCatalog (·.catalogReactivate owner id)

def reactivateMany (p : SegmentPool A) (owner : ClientId) (ids : List SegmentId) :
    Except SegmentStateError Unit × SegmentPool A :=
  if ids = [] then (.ok (), p)
  else p.updateDirectCatalog (·.catalogReactivateMany owner ids)

def remove (p : SegmentPool A) (owner : ClientId) (id : SegmentId) :
    Except SegmentStateError Unit × SegmentPool A :=
  match p.updateDirectCatalog (·.catalogRemove owner id) with
  | (.error err, p) => (.error err, p)
  | (.ok (), p) => (.ok (), p.bumpInvalidationEpoch)

/-- Many owners are invalidated under one lock; repeated owners are ignored. -/
def invalidateOwners (p : SegmentPool A) (owners : List ClientId) : Option (ℕ × SegmentPool A) := do
  let (invalidated, p) ← p.invalidateEach 0 owners
  if invalidated = 0 then some (0, p)
  else some (invalidated, p.rebuildIndexes.bumpDirectCapacityEpoch.bumpInvalidationEpoch)

/-- `reserve` with a handle of this or another pool, which may be stale. -/
def reserve (p : SegmentPool A) (candidate : SegmentHandle) (bytes : ℕ) :
    Option (Except ReserveError (Reservation A) × SegmentPool A) :=
  if candidate.poolId ≠ p.poolId then some (.error .foreignCandidate, p)
  else do
    let e ← p.entries[candidate.entry]?
    let (result, e) ← e.reserve candidate.entry bytes
    some (result, p.modifyEntry candidate.entry fun _ => e)

/-- A reservation is dropped, also after its segment was removed. -/
def dropReservation (p : SegmentPool A) (r : Reservation A) : Option (SegmentPool A) := do
  let e ← p.entries[r.entry]?
  let e ← e.drop r.allocation
  some (p.modifyEntry r.entry fun _ => e)

/-- `Reservation::is_live`. A reservation is made on an entry of the pool; with this
reading of other positions an incarnation never becomes live again. -/
def isLive (p : SegmentPool A) (r : Reservation A) : Bool :=
  (p.entries[r.entry]?).all (·.lifetime.live)

end SegmentPool

end Cakemaster.Segment
