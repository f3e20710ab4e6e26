import Cakemaster.Machine.Atomic
import Cakemaster.Segment.Pool
import Mathlib.Data.List.SplitBy

/-!
# Placement of replicas

Views of the pool, the release of a batch of reservations, and the policy that ranks the
accepting segments for a request. Each call on the pool is one atomic action.
-/

namespace Cakemaster.Segment

open Machine Machine.Prog Option

structure PoolSnapshot where
  generation : ℕ
  replicaClass : ReplicaClass
  candidates : List SegmentHandle
deriving DecidableEq

structure ReplicaClassSpaceStats where
  generation : ℕ
  capacityBytes : ℕ
  usedBytes : ℕ
  availableBytes : ℕ
  largestFreeRegionBytes : ℕ
deriving DecidableEq

namespace SegmentPool

variable {A : UnitAllocator}

def entryOf (p : SegmentPool A) (candidate : SegmentHandle) : Option (SegmentEntry A) :=
  p.entries[candidate.entry]?

def snapshotFor (p : SegmentPool A) (replicaClass : ReplicaClass) : PoolSnapshot :=
  ⟨p.directGeneration, replicaClass, p.direct.map p.handle⟩

/-- `release_many` on the allocator of one entry, and the end of the leases. -/
def releaseGroup (p : SegmentPool A) (group : List (Reservation A)) : Option (SegmentPool A) :=
  match group with
  | [] => some p
  | r :: _ => do
    let e ← p.entries[r.entry]?
    let allocator ← e.allocator.releaseMany (group.map (·.allocation))
    some (p.modifyEntry r.entry fun e =>
      { e with
        allocator
        lifetime := { e.lifetime with activeLeases := e.lifetime.activeLeases - group.length } })

/-- A change of one entry that leaves its incarnation as live as it was. -/
theorem isLive_modifyEntry (p : SegmentPool A) (ref : EntryRef)
    (hf : ∀ e, (f e).lifetime.live = e.lifetime.live) (r : Reservation A) :
    (p.modifyEntry ref f).isLive r = p.isLive r := by
  simp only [isLive, modifyEntry, List.getElem?_modify]
  cases p.entries[r.entry]? with
  | none => rfl
  | some e => by_cases h : ref = r.entry <;> simp [h, hf]

theorem isLive_dropReservation {p p' : SegmentPool A}
    (h : p.dropReservation k = some p') (r : Reservation A) : p'.isLive r = p.isLive r := by
  simp only [dropReservation, SegmentEntry.drop, bind_eq_bind, bind_eq_some_iff] at h
  obtain ⟨_, he, _, ⟨_, -, hdrp⟩, h⟩ := h
  cases hdrp
  cases h
  simp only [isLive, modifyEntry, List.getElem?_modify]
  by_cases hr : k.entry = r.entry
  · simp [← hr, he]
  · simp [hr]

theorem isLive_releaseGroup {p p' : SegmentPool A}
    (h : p.releaseGroup group = some p') (r : Reservation A) : p'.isLive r = p.isLive r := by
  cases group with
  | nil =>
    cases h
    rfl
  | cons k rest =>
    simp only [releaseGroup, bind_eq_bind, bind_eq_some_iff] at h
    obtain ⟨e, -, allocator, -, h⟩ := h
    cases h
    exact isLive_modifyEntry p k.entry (f := fun e => { e with
      allocator
      lifetime := { e.lifetime with activeLeases := e.lifetime.activeLeases - (k :: rest).length } })
      (fun _ => rfl) r

end SegmentPool

/-- The groups of `release_batch`. Allocators are sorted by address in the source;
here by the order in which they were attached. -/
def entryGroups {α : Type} (entry : α → EntryRef) (batch : List α) : List (List α) :=
  (batch.insertionSort fun x y => entry x ≤ entry y).splitBy fun x y => entry x == entry y

theorem flatten_entryGroups_perm {α : Type} (entry : α → EntryRef) (batch : List α) :
    (entryGroups entry batch).flatten.Perm batch := by
  rw [entryGroups, List.flatten_splitBy]
  exact List.perm_insertionSort _ _

structure AllocationSpec where
  bytes : ℕ
deriving DecidableEq

structure PlacementConstraints where
  preferredNames : List String
  excludedSegments : List SegmentId
deriving DecidableEq

structure PlacementRequest where
  allocation : AllocationSpec
  constraints : PlacementConstraints
deriving DecidableEq

/-- The position of the first preferred name of the candidate, `usize::MAX` without one. -/
def preferenceRank (request : PlacementRequest) (spec : SegmentSpec) : ℕ :=
  (request.constraints.preferredNames.findIdx? (· = spec.identity.name)).getD (Word.maxOf 64)

structure RankedCandidate where
  candidate : SegmentHandle
  id : SegmentId
  stats : SegmentStats
  preference : ℕ

namespace FreeCapacityPolicy

variable {A : UnitAllocator}

/-- `left` is placed before `right`: by preference, then by the higher free ratio, then
by the larger free region, then by id. -/
def before (left right : RankedCandidate) : Bool :=
  let leftScaled := left.stats.space.availableBytes * right.stats.space.capacityBytes
  let rightScaled := right.stats.space.availableBytes * left.stats.space.capacityBytes
  if left.preference ≠ right.preference then left.preference < right.preference
  else if leftScaled ≠ rightScaled then rightScaled < leftScaled
  else if left.stats.space.largestFreeRegionBytes ≠ right.stats.space.largestFreeRegionBytes then
    right.stats.space.largestFreeRegionBytes < left.stats.space.largestFreeRegionBytes
  else left.id.le right.id

/-- A candidate with its statistics, if it is eligible. -/
def rank (request : PlacementRequest) (candidate : SegmentHandle) (e : SegmentEntry A) :
    Option RankedCandidate :=
  let stats := e.stats
  let id := e.spec.identity.id
  if stats.state.isAccepting ∧ request.allocation.bytes ≤ stats.space.availableBytes ∧
      id ∉ request.constraints.excludedSegments then
    some ⟨candidate, id, stats, preferenceRank request e.spec⟩
  else none

/-- The statistics of each candidate are read under the locks of its entry. -/
def order (snapshot : PoolSnapshot) (request : PlacementRequest) :
    Prog (SegmentPool A) (List SegmentHandle) := do
  let ranked ← foldOver (fun ranked candidate => do
    let found ← read fun p => (p.entryOf candidate).bind (rank request candidate)
    return ranked ++ found.toList) snapshot.candidates []
  return (ranked.insertionSort (fun a b => before a b)).map (·.candidate)

end FreeCapacityPolicy

namespace ReplicaAllocator

variable {A : UnitAllocator}

def dropEach (reservations : List (Reservation A)) : Prog (SegmentPool A) Unit :=
  foldOver (fun _ r => await fun p => (p.dropReservation r).map ((), ·)) reservations ()

end ReplicaAllocator

end Cakemaster.Segment
