import Cakemaster.Machine.Word
import Mathlib.Algebra.Order.Group.Multiset
import Mathlib.Algebra.BigOperators.Group.Multiset.Basic

/-!
# The byte allocator

`ByteAllocator` adapts a unit allocator that counts in `u32` units to byte
ranges: a segment above 4 GiB is divided into the smallest power-of-two quantum
that lets 32 bits name every unit. The unit allocator is a parameter. What is
assumed of it is `UnitAllocator.Sound`: over every sequence of its own calls the
ranges it has handed out are pairwise disjoint, at least as long as requested
and inside its capacity.
-/

namespace Cakemaster.Segment

open Machine Multiset Nat Word

structure StorageReport where
  totalFreeSpace : ℕ
  largestFreeRegion : ℕ
deriving DecidableEq

/-- The calls that the byte allocator makes to the upstream unit allocator. -/
structure UnitAllocator where
  State : Type
  Allocation : Type
  offset : Allocation → ℕ
  withMaxAllocs : ℕ → ℕ → State
  allocate : State → ℕ → Option (Allocation × State)
  allocationSize : State → Allocation → ℕ
  free : State → Allocation → State
  storageReport : State → StorageReport

/-- A unit range that was handed out: the units asked for and the units given. -/
structure UnitGrant (A : UnitAllocator) where
  allocation : A.Allocation
  requested : ℕ
  size : ℕ

namespace UnitAllocator

variable {A : UnitAllocator}

/-- The states of a unit allocator that its owner can bring about, with the
grants that have not been freed. -/
inductive Reach (A : UnitAllocator) (capacity : ℕ) : A.State → Multiset (UnitGrant A) → Prop
  | new (maxAllocs : ℕ) : Reach A capacity (A.withMaxAllocs capacity maxAllocs) 0
  | allocate (hrch : Reach A capacity s held) (hunits : 0 < units)
      (hallocate : A.allocate s units = some (a, s')) :
      Reach A capacity s' (⟨a, units, A.allocationSize s' a⟩ ::ₘ held)
  | free (hrch : Reach A capacity s (g ::ₘ held)) : Reach A capacity (A.free s g.allocation) held

/-- The unit allocator hands out disjoint ranges of at least the requested size
inside its capacity. -/
structure Sound (A : UnitAllocator) : Prop where
  disjoint : ∀ {capacity s g h rest}, A.Reach capacity s (g ::ₘ h ::ₘ rest) →
    Disjoint (Set.Ico (A.offset g.allocation) (A.offset g.allocation + g.size))
      (Set.Ico (A.offset h.allocation) (A.offset h.allocation + h.size))
  requested_le : ∀ {capacity s held g}, A.Reach capacity s held → g ∈ held → g.requested ≤ g.size
  inside : ∀ {capacity s held g}, A.Reach capacity s held → g ∈ held →
    A.offset g.allocation + g.size ≤ capacity

end UnitAllocator

/-- The loop of `ByteAllocator::new`: the first shift that brings the capacity
into 32 bits. A shift of a `u64` ends the loop within 32 rounds. -/
def quantumShiftFrom (capacity : ℕ) : ℕ → ℕ → ℕ
  | 0, shift => shift
  | fuel + 1, shift =>
    if maxOf 32 < capacity >>> shift then quantumShiftFrom capacity fuel (shift + 1) else shift

def quantumShiftFor (capacity : ℕ) : ℕ := quantumShiftFrom capacity 64 0

theorem quantumShiftFrom_fits (h : capacity < 2 ^ (32 + fuel + shift)) :
    capacity >>> quantumShiftFrom capacity fuel shift ≤ maxOf 32 := by
  induction fuel generalizing shift with
  | zero =>
    have hlt : capacity >>> shift < 2 ^ 32 := by
      rw [Nat.shiftRight_eq_div_pow, Nat.div_lt_iff_lt_mul (Nat.two_pow_pos shift), ← Nat.pow_add]
      simpa using h
    simp only [quantumShiftFrom, maxOf]
    omega
  | succ fuel ih =>
    unfold quantumShiftFrom
    split
    · exact ih (by rwa [show 32 + fuel + (shift + 1) = 32 + (fuel + 1) + shift by omega])
    · omega

theorem quantumShiftFor_fits (h : capacity < 2 ^ 64) :
    capacity >>> quantumShiftFor capacity < 2 ^ 32 := by
  have hfits : capacity >>> quantumShiftFor capacity ≤ maxOf 32 :=
    quantumShiftFrom_fits (h.trans (by norm_num))
  unfold maxOf at hfits
  omega

/-- The shared allocator of one segment, with the mutex-protected state flattened. -/
structure ByteAllocator (A : UnitAllocator) where
  inner : A.State
  usedBytes : ℕ
  liveAllocations : ℕ
  quantumShift : ℕ
  managedCapacity : ℕ
  largestFreeRegionHint : ℕ

/-- A live allocation; dropping it returns its range. -/
structure OffsetAllocationHandle (A : UnitAllocator) where
  allocation : A.Allocation
  offset : ℕ
  requestedBytes : ℕ
  reservedBytes : ℕ

structure AllocatorStats where
  capacity : ℕ
  usedBytes : ℕ
  availableBytes : ℕ
  largestFreeRegion : ℕ
  liveAllocations : ℕ
deriving DecidableEq

namespace ByteAllocator

variable {A : UnitAllocator}

def new (A : UnitAllocator) (capacity maxAllocatorNodes : ℕ) : ByteAllocator A :=
  let shift := quantumShiftFor capacity
  let capacityUnits := (capacity >>> shift) % 2 ^ 32
  let inner := A.withMaxAllocs capacityUnits maxAllocatorNodes
  { inner
    usedBytes := 0
    liveAllocations := 0
    quantumShift := shift
    managedCapacity := capacityUnits <<< shift
    largestFreeRegionHint := (A.storageReport inner).largestFreeRegion <<< shift }

def maySatisfy (b : ByteAllocator A) (requestedBytes : ℕ) : Bool :=
  requestedBytes ≠ 0 ∧ requestedBytes ≤ b.managedCapacity ∧ requestedBytes ≤ b.largestFreeRegionHint

def refreshLargestFreeRegion (b : ByteAllocator A) : ByteAllocator A :=
  { b with largestFreeRegionHint := (A.storageReport b.inner).largestFreeRegion <<< b.quantumShift }

/-- The mutex-protected allocation. It can fail after a successful precheck. -/
def allocateAfterPrecheck (b : ByteAllocator A) (requestedBytes : ℕ) :
    Option (OffsetAllocationHandle A) × ByteAllocator A :=
  let allocationUnits := ceilDiv requestedBytes (1 <<< b.quantumShift)
  if allocationUnits < 2 ^ 32 then
    match A.allocate b.inner allocationUnits with
    | none => (none, b.refreshLargestFreeRegion)
    | some (allocation, inner) =>
      let reservedBytes := A.allocationSize inner allocation <<< b.quantumShift
      (some { allocation
              offset := A.offset allocation <<< b.quantumShift
              requestedBytes
              reservedBytes },
        { b with
          inner
          usedBytes := b.usedBytes + reservedBytes
          liveAllocations := b.liveAllocations + 1 })
  else (none, b)

def freeAll (s : A.State) : List (OffsetAllocationHandle A) → A.State
  | [] => s
  | h :: rest => freeAll (A.free s h.allocation) rest

/-- `release_many`; `none` is the panic of an unbalanced release. -/
def releaseMany (b : ByteAllocator A) (releases : List (OffsetAllocationHandle A)) :
    Option (ByteAllocator A) := do
  let liveAllocations ← checkedSub b.liveAllocations releases.length
  let usedBytes ← checkedSub b.usedBytes (releases.map (·.reservedBytes)).sum
  let released := { b with inner := freeAll b.inner releases, liveAllocations, usedBytes }
  if releases.length ≠ 0 ∧ b.largestFreeRegionHint < b.managedCapacity then
    some released.refreshLargestFreeRegion
  else some released

def release (b : ByteAllocator A) (h : OffsetAllocationHandle A) : Option (ByteAllocator A) :=
  b.releaseMany [h]

def stats (b : ByteAllocator A) : AllocatorStats :=
  let report := A.storageReport b.inner
  { capacity := b.managedCapacity
    usedBytes := b.usedBytes
    availableBytes := report.totalFreeSpace <<< b.quantumShift
    largestFreeRegion := report.largestFreeRegion <<< b.quantumShift
    liveAllocations := b.liveAllocations }

def grant (shift : ℕ) (h : OffsetAllocationHandle A) : UnitGrant A where
  allocation := h.allocation
  requested := ceilDiv h.requestedBytes (1 <<< shift)
  size := h.reservedBytes / 2 ^ shift

/-- A handle whose byte range is a unit grant scaled by the quantum. -/
structure HandleScaled (shift : ℕ) (h : OffsetAllocationHandle A) : Prop where
  offset_eq : h.offset = A.offset h.allocation * 2 ^ shift
  reserved_eq : h.reservedBytes = h.reservedBytes / 2 ^ shift * 2 ^ shift
  requested_pos : 0 < h.requestedBytes

/-- The allocator of a segment of `capacity` bytes whose live handles are `held`. -/
structure Serves (b : ByteAllocator A) (capacity : ℕ)
    (held : Multiset (OffsetAllocationHandle A)) : Prop where
  shift_eq : b.quantumShift = quantumShiftFor capacity
  managed_eq : b.managedCapacity = (capacity >>> b.quantumShift) * 2 ^ b.quantumShift
  reach : A.Reach (capacity >>> b.quantumShift) b.inner (held.map (grant b.quantumShift))
  scaled : ∀ h ∈ held, HandleScaled b.quantumShift h
  used_eq : b.usedBytes = (held.map (·.reservedBytes)).sum
  live_eq : b.liveAllocations = held.card

theorem serves_new (maxAllocatorNodes : ℕ) (hcap : capacity < 2 ^ 64) :
    (new A capacity maxAllocatorNodes).Serves capacity 0 := by
  have hunits : (capacity >>> quantumShiftFor capacity) % 2 ^ 32 = capacity >>> quantumShiftFor
    capacity :=
    mod_eq_of_lt (quantumShiftFor_fits hcap)
  refine ⟨rfl, ?_, ?_, by simp, rfl, rfl⟩
  · simp only [new, hunits, shiftLeft_eq]
  · simp only [new, hunits, map_zero]
    exact .new maxAllocatorNodes

theorem Serves.refreshLargestFreeRegion {b : ByteAllocator A} (hb : b.Serves capacity held) :
    b.refreshLargestFreeRegion.Serves capacity held := by
  obtain ⟨hshift, hmgd, hrch, hscl, hused, hlive⟩ := hb
  exact ⟨hshift, hmgd, hrch, hscl, hused, hlive⟩

section Serves

variable {b b' : ByteAllocator A} {capacity bytes : ℕ} {held : Multiset (OffsetAllocationHandle A)}
  {h : OffsetAllocationHandle A}

theorem Serves.of_allocate_none (hb : b.Serves capacity held)
    (hnone : b.allocateAfterPrecheck bytes = (none, b')) : b'.Serves capacity held := by
  simp only [allocateAfterPrecheck] at hnone
  split at hnone
  · split at hnone <;> simp only [Prod.mk.injEq, reduceCtorEq, false_and, true_and] at hnone
    exact hnone ▸ hb.refreshLargestFreeRegion
  · obtain ⟨-, rfl⟩ := Prod.mk.inj hnone
    exact hb

theorem Serves.of_allocate_some (hb : b.Serves capacity held) (hbyt : 0 < bytes)
    (hsome : b.allocateAfterPrecheck bytes = (some h, b')) :
    b'.Serves capacity (h ::ₘ held) ∧ h.requestedBytes = bytes := by
  simp only [allocateAfterPrecheck] at hsome
  split at hsome
  case isFalse => simp at hsome
  split at hsome
  case h_1 => simp at hsome
  next allocation inner hallocate =>
  simp only [Prod.mk.injEq, Option.some.injEq] at hsome
  obtain ⟨rfl, rfl⟩ := hsome
  obtain ⟨hshift, hmgd, hrch, hscl, hused, hlive⟩ := hb
  have hexact : A.allocationSize inner allocation <<< b.quantumShift / 2 ^ b.quantumShift =
      A.allocationSize inner allocation := by
    rw [Nat.shiftLeft_eq, Nat.mul_div_cancel _ (Nat.two_pow_pos _)]
  refine ⟨⟨hshift, hmgd, ?_, ?_, ?_, ?_⟩, rfl⟩
  · have hgrown := hrch.allocate (ceilDiv_pos hbyt) hallocate
    simpa [grant, hexact] using hgrown
  · intro k hk
    rcases mem_cons.mp hk with rfl | hk
    · exact ⟨Nat.shiftLeft_eq
        .., by simp only [Nat.shiftLeft_eq, Nat.mul_div_cancel _ (Nat.two_pow_pos _)], hbyt⟩
    · exact hscl k hk
  · simp only [map_cons, sum_cons, hused, add_comm]
  · simp only [card_cons, hlive]

theorem freeAll_reach (releases : List (OffsetAllocationHandle A))
    (hrch : A.Reach units s ((releases + held).map (grant shift))) :
    A.Reach units (freeAll s releases) (held.map (grant shift)) := by
  induction releases generalizing s with
  | nil => simpa [freeAll] using hrch
  | cons k rest ih =>
    refine ih ?_
    rw [← cons_coe, cons_add, map_cons] at hrch
    exact hrch.free

/-- A batch of live handles is released without the unbalanced-release panic. -/
theorem Serves.releaseMany {releases : List (OffsetAllocationHandle A)}
    (hb : b.Serves capacity (releases + held)) :
    ∃ b', b.releaseMany releases = some b' ∧ b'.Serves capacity held := by
  obtain ⟨hshift, hmgd, hrch, hscl, hused, hlive⟩ := hb
  simp only [map_add, sum_add, map_coe, sum_coe] at hused
  simp only [card_add, coe_card] at hlive
  have hsrv : ({ b with
        inner := freeAll b.inner releases
        liveAllocations := b.liveAllocations - releases.length
        usedBytes := b.usedBytes - (releases.map (·.reservedBytes)).sum } :
      ByteAllocator A).Serves capacity held := by
    refine ⟨hshift, hmgd, freeAll_reach releases hrch, ?_, ?_, ?_⟩
    · exact fun k hk => hscl k (mem_add.mpr (.inr hk))
    · dsimp only
      omega
    · dsimp only
      omega
  simp only [ByteAllocator.releaseMany, checkedSub_of_le (show releases.length ≤ b.liveAllocations by omega),
    checkedSub_of_le (show (releases.map (·.reservedBytes)).sum ≤ b.usedBytes by omega),
    Option.bind_eq_bind, Option.bind_some]
  split
  · exact ⟨_, rfl, hsrv.refreshLargestFreeRegion⟩
  · exact ⟨_, rfl, hsrv⟩

theorem Serves.release (hb : b.Serves capacity (h ::ₘ held)) :
    ∃ b', b.release h = some b' ∧ b'.Serves capacity held := by
  have hsingle : b.Serves capacity (([h] : List (OffsetAllocationHandle A)) + held) := hb
  exact hsingle.releaseMany

variable (hA : A.Sound)
include hA

theorem Serves.requested_le_reserved (hb : b.Serves capacity held) (hh : h ∈ held) :
    h.requestedBytes ≤ h.reservedBytes := by
  have hsize := hA.requested_le hb.reach (mem_map_of_mem _ hh)
  simp only [grant, one_shiftLeft] at hsize
  calc h.requestedBytes ≤ ceilDiv h.requestedBytes (1 <<< b.quantumShift) * 1 <<< b.quantumShift :=
        le_ceilDiv_mul _ (by rw [Nat.one_shiftLeft]; exact Nat.two_pow_pos _)
    _ ≤ h.reservedBytes / 2 ^ b.quantumShift * 2 ^ b.quantumShift := by
        rw [one_shiftLeft]
        exact mul_le_mul_right _ hsize
    _ = h.reservedBytes := ((hb.scaled h hh).reserved_eq).symm

theorem Serves.range_inside (hb : b.Serves capacity held) (hh : h ∈ held) :
    h.offset + h.reservedBytes ≤ b.managedCapacity := by
  have hinside := hA.inside hb.reach (mem_map_of_mem _ hh)
  have hscl := hb.scaled h hh
  have hbyt := mul_le_mul_right (2 ^ b.quantumShift) hinside
  rw [hb.managed_eq, hscl.offset_eq, hscl.reserved_eq]
  simpa [grant, add_mul] using hbyt

omit hA in
theorem Serves.managed_le (hb : b.Serves capacity held) : b.managedCapacity ≤ capacity := by
  rw [hb.managed_eq, shiftRight_eq_div_pow]
  exact div_mul_le_self _ _

theorem Serves.range_disjoint (hb : b.Serves capacity (h ::ₘ k ::ₘ held)) :
    Disjoint (Set.Ico h.offset (h.offset + h.reservedBytes))
      (Set.Ico k.offset (k.offset + k.reservedBytes)) := by
  have hrch := hb.reach
  rw [map_cons, map_cons] at hrch
  have hscl := disjoint_Ico_scale (2 ^ b.quantumShift) (hA.disjoint hrch)
  obtain ⟨hoffset, hreserved, -⟩ := hb.scaled h (by simp)
  obtain ⟨koffset, kreserved, -⟩ := hb.scaled k (by simp)
  rw [hoffset, koffset, hreserved, kreserved]
  exact hscl

end Serves

end ByteAllocator

end Cakemaster.Segment
