import Cakemaster.Segment.Pool

/-!
# The invariant of the segment pool

`PoolInvariant p held` ties a pool to the multiset of reservations that have not
been dropped. An entry is live exactly while the catalog maps its id to it, live
entries of one owner and transport cover disjoint ranges, and every entry's
allocator serves exactly the reservations held from that entry, mounted or not.
-/

namespace Cakemaster.Segment

open Machine SegmentPool SegmentPool Option

variable {A : UnitAllocator}

/-- The allocations held from the entry at `ref`. -/
def heldAt (held : Multiset (Reservation A)) (ref : EntryRef) :
    Multiset (OffsetAllocationHandle A) :=
  (held.filter (·.entry = ref)).map (·.allocation)

@[simp] theorem heldAt_cons_self (r : Reservation A) (held : Multiset (Reservation A)) :
    heldAt (r ::ₘ held) r.entry = r.allocation ::ₘ heldAt held r.entry := by
  simp [heldAt]

theorem heldAt_cons_ne (h : r.entry ≠ ref)
    (held : Multiset (Reservation A)) : heldAt (r ::ₘ held) ref = heldAt held ref := by
  simp [heldAt, h]

/-- The part of the invariant that concerns one entry and its reservations. -/
structure EntryInvariant (e : SegmentEntry A) (held : Multiset (OffsetAllocationHandle A)) :
    Prop where
  range : 0 < e.spec.region.size ∧ e.spec.region.base + e.spec.region.size < 2 ^ 64
  serves : e.allocator.Serves e.spec.region.size held
  leases : e.lifetime.activeLeases = held.card
  live_iff : e.lifetime.live = true ↔ e.state ≠ .removed

/-- Entries, the map of mounted segments and the reservations agree. -/
structure MountInvariant (p : SegmentPool A) (held : Multiset (Reservation A)) : Prop where
  entry : ∀ {ref : EntryRef} {e : SegmentEntry A}, p.entries[ref]? = some e →
    EntryInvariant e (heldAt held ref)
  live_mounted : ∀ {ref : EntryRef} {e : SegmentEntry A}, p.entries[ref]? = some e →
    e.lifetime.live = true → p.segments.lookup e.spec.identity.id = some ref
  mounted : ∀ {id ref}, p.segments.lookup id = some ref →
    ∃ e, p.entries[ref]? = some e ∧ e.spec.identity.id = id ∧ e.lifetime.live = true
  apart : ∀ {ref ref' : EntryRef} {e e' : SegmentEntry A}, ref ≠ ref' →
    p.entries[ref]? = some e → p.entries[ref']? = some e' → e.lifetime.live = true →
    e'.lifetime.live = true → e.spec.identity.owner = e'.spec.identity.owner →
    e.spec.transport = e'.spec.transport → Disjoint e.spec.region.addresses e'.spec.region.addresses
  reserved : ∀ {r}, r ∈ held → ∃ e, p.entries[r.entry]? = some e ∧ r.segment = e.spec ∧
    r.region = ⟨e.spec.region.base + r.allocation.offset, r.allocation.requestedBytes⟩

namespace SegmentPool

def ownerOf (p : SegmentPool A) (id : SegmentId) : Option ClientId :=
  (p.segments.lookup id).bind fun ref => (p.entries[ref]?).map (·.spec.identity.owner)

def ownedIds (p : SegmentPool A) (owner : ClientId) : List SegmentId :=
  (p.segmentsByOwner.lookup owner).getD []

end SegmentPool

/-- The owner index lists the mounted segments of each owner, each once. -/
structure OwnerIndex (p : SegmentPool A) : Prop where
  mem_iff : ∀ {owner id}, id ∈ p.ownedIds owner ↔ p.ownerOf id = some owner
  nodup : ∀ owner, (p.ownedIds owner).Nodup

structure PoolInvariant (p : SegmentPool A) (held : Multiset (Reservation A)) : Prop where
  mounts : MountInvariant p held
  index : OwnerIndex p

theorem PoolInvariant.empty (poolId : ℕ) (config : SegmentPoolConfig) :
    PoolInvariant (.empty A poolId config) 0 := by
  refine ⟨⟨?_, ?_, ?_, ?_, ?_⟩, ?_, ?_⟩ <;>
    simp [SegmentPool.empty, SegmentPool.ownedIds, SegmentPool.ownerOf]

section Frame

variable {p p' : SegmentPool A} {held : Multiset (Reservation A)}

theorem MountInvariant.congr (hp : MountInvariant p held) (hents : p'.entries = p.entries)
    (hsegs : p'.segments = p.segments) : MountInvariant p' held := by
  obtain ⟨hent, hlive, hmtd, hapart, hreserved⟩ := hp
  rw [← hents] at hent hlive hmtd hapart hreserved
  rw [← hsegs] at hlive hmtd
  exact ⟨hent, hlive, hmtd, hapart, hreserved⟩

theorem OwnerIndex.congr (hp : OwnerIndex p) (hownr : ∀ id, p'.ownerOf id = p.ownerOf id)
    (hindex : p'.segmentsByOwner = p.segmentsByOwner) : OwnerIndex p' := by
  have howd : ∀ owner, p'.ownedIds owner = p.ownedIds owner := by
    intro owner
    rw [ownedIds, hindex, ownedIds]
  constructor
  · intro owner id
    rw [howd, hownr]
    exact hp.mem_iff
  · intro owner
    rw [howd]
    exact hp.nodup owner

theorem ownerOf_congr (hents : p'.entries = p.entries) (hsegs : p'.segments = p.segments)
    (id : SegmentId) : p'.ownerOf id = p.ownerOf id := by
  simp only [ownerOf, hents, hsegs]

theorem PoolInvariant.congr (hp : PoolInvariant p held) (hents : p'.entries = p.entries)
    (hsegs : p'.segments = p.segments) (hindex : p'.segmentsByOwner = p.segmentsByOwner) :
    PoolInvariant p' held :=
  ⟨hp.mounts.congr hents hsegs, hp.index.congr (ownerOf_congr hents hsegs) hindex⟩

@[simp] theorem entries_rebuildIndexes : p.rebuildIndexes.entries = p.entries := by
  simp only [rebuildIndexes]
  split <;> rfl

@[simp] theorem segments_rebuildIndexes : p.rebuildIndexes.segments = p.segments := by
  simp only [rebuildIndexes]
  split <;> rfl

@[simp] theorem segmentsByOwner_rebuildIndexes :
    p.rebuildIndexes.segmentsByOwner = p.segmentsByOwner := by
  simp only [rebuildIndexes]
  split <;> rfl

@[simp] theorem poolId_rebuildIndexes : p.rebuildIndexes.poolId = p.poolId := by
  simp only [rebuildIndexes]
  split <;> rfl

variable (hp : PoolInvariant p held)
include hp

theorem PoolInvariant.rebuildIndexes : PoolInvariant p.rebuildIndexes held :=
  hp.congr (by simp) (by simp) (by simp)

theorem PoolInvariant.bumpDirectCapacityEpoch : PoolInvariant p.bumpDirectCapacityEpoch held :=
  hp.congr rfl rfl rfl

theorem PoolInvariant.bumpInvalidationEpoch : PoolInvariant p.bumpInvalidationEpoch held :=
  hp.congr rfl rfl rfl

end Frame

section ModifyEntry

variable {p : SegmentPool A} {held held' : Multiset (Reservation A)} {ref : EntryRef}
  {e e' : SegmentEntry A} {f : SegmentEntry A → SegmentEntry A}

theorem getElem?_modifyEntry (p : SegmentPool A) (ref : EntryRef)
    (f : SegmentEntry A → SegmentEntry A) (ref' : EntryRef) :
    (p.modifyEntry ref f).entries[ref']? =
      if ref = ref' then (p.entries[ref']?).map f else p.entries[ref']? := by
  simp only [modifyEntry, List.getElem?_modify, map_eq_map]
  split <;> simp

/-- Replacing one entry by another of the same segment and liveness, together with
a change of the reservations held from that entry only. -/
theorem MountInvariant.modifyEntry (hp : MountInvariant p held) (he : p.entries[ref]? = some e)
    (hf : f e = e') (hspec : e'.spec = e.spec) (hlive : e'.lifetime.live = e.lifetime.live)
    (hent : EntryInvariant e' (heldAt held' ref))
    (hoth : ∀ ref', ref ≠ ref' → heldAt held' ref' = heldAt held ref')
    (hreserved : ∀ r ∈ held', r ∈ held ∨ r.entry = ref ∧ r.segment = e.spec ∧
      r.region = ⟨e.spec.region.base + r.allocation.offset, r.allocation.requestedBytes⟩) :
    MountInvariant (p.modifyEntry ref f) held' := by
  have hlook : ∀ {ref' : EntryRef} {k : SegmentEntry A}, (p.modifyEntry ref f).entries[ref']? = some k →
      ∃ k', p.entries[ref']? = some k' ∧ k.spec = k'.spec ∧ k.lifetime.live = k'.lifetime.live := by
    intro ref' k hk
    rw [getElem?_modifyEntry] at hk
    split at hk
    case isTrue heq =>
      subst heq
      rw [he, map_some, some.injEq, hf] at hk
      exact ⟨e, he, hk ▸ hspec, hk ▸ hlive⟩
    case isFalse => exact ⟨k, hk, rfl, rfl⟩
  constructor
  · intro ref' k hk
    rw [getElem?_modifyEntry] at hk
    split at hk
    case isTrue heq =>
      subst heq
      rw [he, map_some, some.injEq, hf] at hk
      exact hk ▸ hent
    case isFalse hne =>
      rw [hoth ref' hne]
      exact hp.entry hk
  · intro ref' k hk hklive
    obtain ⟨k', hk', hkspec, hkl⟩ := hlook hk
    rw [hkspec]
    exact hp.live_mounted hk' (hkl ▸ hklive)
  · intro id ref' hid
    obtain ⟨k, hk, hkid, hklive⟩ := hp.mounted hid
    by_cases heq : ref = ref'
    · subst heq
      rw [he, some.injEq] at hk
      subst hk
      refine ⟨e', ?_, hspec ▸ hkid, hlive ▸ hklive⟩
      rw [getElem?_modifyEntry, if_pos rfl, he, map_some, hf]
    · exact ⟨k, by rw [getElem?_modifyEntry, if_neg heq, hk], hkid, hklive⟩
  · intro r₁ r₂ k₁ k₂ hne h₁ h₂ hl₁ hl₂ hownr htrp
    obtain ⟨_, h₁', hs₁, hk₁⟩ := hlook h₁
    obtain ⟨_, h₂', hs₂, hk₂⟩ := hlook h₂
    rw [hs₁, hs₂] at hownr htrp ⊢
    exact hp.apart hne h₁' h₂' (hk₁ ▸ hl₁) (hk₂ ▸ hl₂) hownr htrp
  intro r hr
  have hold : ∃ k, p.entries[r.entry]? = some k ∧ r.segment = k.spec ∧
      r.region = ⟨k.spec.region.base + r.allocation.offset, r.allocation.requestedBytes⟩ := by
    rcases hreserved r hr with hmem | ⟨rfl, hseg, hreg⟩
    · exact hp.reserved hmem
    · exact ⟨e, he, hseg, hreg⟩
  obtain ⟨k, hk, hseg, hreg⟩ := hold
  by_cases heq : ref = r.entry
  · subst heq
    rw [he, some.injEq] at hk
    subst hk
    refine ⟨e', ?_, hseg.trans hspec.symm, by rw [hspec]; exact hreg⟩
    rw [getElem?_modifyEntry, if_pos rfl, he, map_some, hf]
  · exact ⟨k, by rw [getElem?_modifyEntry, if_neg heq, hk], hseg, hreg⟩

theorem ownerOf_modifyEntry (hspec : ∀ e, p.entries[ref]? = some e → (f e).spec = e.spec)
    (id : SegmentId) : (p.modifyEntry ref f).ownerOf id = p.ownerOf id := by
  have hmap : ∀ ref' : EntryRef, ((p.modifyEntry ref f).entries[ref']?).map
      (·.spec.identity.owner) = (p.entries[ref']?).map (·.spec.identity.owner) := by
    intro ref'
    rw [getElem?_modifyEntry]
    split
    case isTrue heq =>
      subst heq
      cases he : p.entries[ref]? with
      | none => rfl
      | some e => simp [hspec e he]
    case isFalse => rfl
  simp only [ownerOf, hmap]
  rfl

end ModifyEntry

end Cakemaster.Segment
