import Cakemaster.Segment.Allocator

/-!
# A unit allocator that satisfies the assumption

The simplest allocator that hands out disjoint ranges: it cuts them off the front
of what was never used. The statements about the pool are evaluated with it.
-/

namespace Cakemaster.Segment

open Multiset

structure BumpState where
  capacity : ℕ
  next : ℕ

structure BumpRange where
  offset : ℕ
  size : ℕ

def bumpAllocator : UnitAllocator where
  State := BumpState
  Allocation := BumpRange
  offset := BumpRange.offset
  withMaxAllocs capacity _ := ⟨capacity, 0⟩
  allocate s units :=
    if s.next + units ≤ s.capacity then some (⟨s.next, units⟩, ⟨s.capacity, s.next + units⟩) else none
  allocationSize _ a := a.size
  free s _ := s
  storageReport s := ⟨s.capacity - s.next, s.capacity - s.next⟩

/-- Grants lie below the front, and no two of them meet. -/
structure BumpInvariant (capacity : ℕ) (s : BumpState) (held : Multiset (UnitGrant bumpAllocator)) :
    Prop where
  capacity_eq : s.capacity = capacity
  front_le : s.next ≤ capacity
  below : ∀ g ∈ held, g.allocation.offset + g.size ≤ s.next
  requested_eq : ∀ g ∈ held, g.requested = g.size
  nodup : held.Nodup
  apart : ∀ g ∈ held, ∀ h ∈ held, g ≠ h →
    g.allocation.offset + g.size ≤ h.allocation.offset ∨
    h.allocation.offset + h.size ≤ g.allocation.offset

theorem bumpInvariant_of_reach (h : bumpAllocator.Reach capacity s held) :
    BumpInvariant capacity s held := by
  induction h with
  | new => exact ⟨rfl, Nat.zero_le _, by simp, by simp, by simp, by simp⟩
  | @allocate s held units a s' hrch hunits hallocate ih =>
    obtain ⟨hcap, hfront, hbelow, hrqd, hnd, hapart⟩ := ih
    simp only [bumpAllocator] at hallocate
    split at hallocate
    case isFalse => cases hallocate
    case isTrue hfits =>
      obtain ⟨rfl, rfl⟩ := Prod.mk.inj (Option.some.inj hallocate)
      refine ⟨hcap, hcap ▸ hfits, ?_, ?_, ?_, ?_⟩
      · intro g hg
        rcases mem_cons.mp hg with rfl | hg
        · exact Nat.le_refl _
        · exact (hbelow g hg).trans (Nat.le_add_right _ _)
      · intro g hg
        rcases mem_cons.mp hg with rfl | hg
        · rfl
        · exact hrqd g hg
      · refine nodup_cons.mpr ⟨?_, hnd⟩
        intro hmem
        have hle := hbelow _ hmem
        have hsize : s.next + units ≤ s.next := hle
        omega
      · intro g hg k hk hne
        rcases mem_cons.mp hg with rfl | hg <;> rcases mem_cons.mp hk with rfl | hk
        · exact absurd rfl hne
        · exact .inr (hbelow k hk)
        · exact .inl (hbelow g hg)
        · exact hapart g hg k hk hne
  | @free s g held hrch ih =>
    obtain ⟨hcap, hfront, hbelow, hrqd, hnd, hapart⟩ := ih
    exact ⟨hcap, hfront, fun k hk => hbelow k (mem_cons_of_mem hk),
      fun k hk => hrqd k (mem_cons_of_mem hk), (nodup_cons.mp hnd).2,
      fun k hk l hl => hapart k (mem_cons_of_mem hk) l (mem_cons_of_mem hl)⟩

theorem bumpAllocator_sound : bumpAllocator.Sound where
  disjoint := by
    intro capacity s g h rest hrch
    have hinv := bumpInvariant_of_reach hrch
    have hne : g ≠ h := by
      rintro rfl
      exact (nodup_cons.mp hinv.nodup).1 (mem_cons_self _ _)
    have hapart := hinv.apart g (by simp) h (by simp) hne
    simp only [Set.Ico_disjoint_Ico, bumpAllocator]
    omega
  requested_le := by
    intro capacity s held g hrch hg
    exact ((bumpInvariant_of_reach hrch).requested_eq g hg).le
  inside := by
    intro capacity s held g hrch hg
    have hinv := bumpInvariant_of_reach hrch
    exact (hinv.below g hg).trans hinv.front_le

end Cakemaster.Segment
