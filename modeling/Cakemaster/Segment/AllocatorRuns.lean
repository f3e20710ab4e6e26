import Cakemaster.Segment.BumpAllocator
import Cakemaster.Segment.Placement
import Mathlib.Algebra.Order.BigOperators.Group.Multiset
import Mathlib.Data.Multiset.Bind
import Mathlib.Data.Multiset.Range

/-!
# Runs of a byte allocator

What holds after every sequence of allocations and releases: the hint that is read
without the mutex is never below what the unit allocator can serve, the accounts are
those of the live handles, and a batch of releases does what single drops do.
-/

namespace Cakemaster.Segment

open Machine Multiset Nat Function

variable {A : UnitAllocator}

/-- What the reports of a unit allocator say about its allocations. -/
structure UnitAllocator.Reports (A : UnitAllocator) : Prop where
  served_le : ∀ {capacity s held units a s'}, A.Reach capacity s held →
    A.allocate s units = some (a, s') → units ≤ (A.storageReport s).largestFreeRegion
  not_raised : ∀ {capacity s held units a s'}, A.Reach capacity s held →
    A.allocate s units = some (a, s') →
    (A.storageReport s').largestFreeRegion ≤ (A.storageReport s).largestFreeRegion
  le_capacity : ∀ {capacity s held}, A.Reach capacity s held →
    (A.storageReport s).largestFreeRegion ≤ capacity

theorem bumpAllocator_reports : bumpAllocator.Reports where
  served_le := by
    intro capacity s held units a s' _ hallocate
    simp only [bumpAllocator, Option.ite_none_right_eq_some] at hallocate ⊢
    omega
  not_raised := by
    intro capacity s held units a s' _ hallocate
    simp only [bumpAllocator, Option.ite_none_right_eq_some] at hallocate ⊢
    obtain ⟨_, hsome⟩ := hallocate
    cases hsome
    dsimp only
    omega
  le_capacity := by
    intro capacity s held hrch
    have hcap := (bumpInvariant_of_reach hrch).capacity_eq
    simp only [bumpAllocator]
    omega

namespace ByteAllocator

/-- The allocator of a segment after some calls, with the handles that are live. A
single release is a batch of one. -/
inductive Run (A : UnitAllocator) (capacity maxAllocatorNodes : ℕ) :
    ByteAllocator A → Multiset (OffsetAllocationHandle A) → Prop
  | new : Run A capacity maxAllocatorNodes (new A capacity maxAllocatorNodes) 0
  | allocate {b : ByteAllocator A} {held : Multiset (OffsetAllocationHandle A)} (bytes : ℕ)
      (hbyt : 0 < bytes) (hrun : Run A capacity maxAllocatorNodes b held) :
      Run A capacity maxAllocatorNodes (b.allocateAfterPrecheck bytes).2
        ((b.allocateAfterPrecheck bytes).1.elim held (· ::ₘ held))
  | release {b b' : ByteAllocator A} {held : Multiset (OffsetAllocationHandle A)}
      (releases : List (OffsetAllocationHandle A)) (hrun : Run A capacity maxAllocatorNodes b (releases + held))
      (hrls : b.releaseMany releases = some b') : Run A capacity maxAllocatorNodes b' held

variable {b b' : ByteAllocator A} {capacity maxAllocatorNodes bytes : ℕ}
  {held : Multiset (OffsetAllocationHandle A)}

theorem Run.serves (hcap : capacity < 2 ^ 64) (h : Run A capacity maxAllocatorNodes b held) :
    b.Serves capacity held := by
  induction h with
  | new => exact serves_new _ hcap
  | @allocate b held bytes hbyt _ ih =>
    cases hres : b.allocateAfterPrecheck bytes with
    | mk handle b' =>
      cases handle with
      | none => exact ih.of_allocate_none hres
      | some handle => exact (ih.of_allocate_some hbyt hres).1
  | release releases _ hrls ih =>
    obtain ⟨b', hsome, hsrv⟩ := ih.releaseMany
    cases hrls.symm.trans hsome
    exact hsrv

/-! ### The free-space hint -/

/-- The hint covers what the unit allocator reports. -/
def HintCovers (b : ByteAllocator A) : Prop :=
  (A.storageReport b.inner).largestFreeRegion <<< b.quantumShift ≤ b.largestFreeRegionHint

theorem HintCovers.allocate (hA : A.Reports) (hsrv : b.Serves capacity held) (h : b.HintCovers) :
    (b.allocateAfterPrecheck bytes).2.HintCovers := by
  simp only [allocateAfterPrecheck]
  split
  · split
    · exact le_rfl
    · next hallocate =>
      refine le_trans ?_ h
      simp only [shiftLeft_eq]
      exact mul_le_mul_right _ (hA.not_raised hsrv.reach hallocate)
  · exact h

theorem HintCovers.release (hA : A.Reports)
    (hsrv : b'.Serves capacity held) (hrls : b.releaseMany releases = some b')
    (h : b.HintCovers) : b'.HintCovers := by
  simp only [releaseMany, Option.bind_eq_bind, Option.bind_eq_some_iff] at hrls
  obtain ⟨_, -, _, -, hrls⟩ := hrls
  split at hrls <;> cases hrls
  · exact le_rfl
  · next hkept =>
    -- The hint was not refreshed: nothing was freed, or it covers the whole segment.
    rcases releases with - | ⟨_, _⟩
    · exact h
    · have hfull : b.managedCapacity ≤ b.largestFreeRegionHint := by simpa using hkept
      refine le_trans ?_ hfull
      rw [shiftLeft_eq]
      exact (mul_le_mul_right _ (hA.le_capacity hsrv.reach)).trans_eq hsrv.managed_eq.symm

theorem Run.hintCovers (hA : A.Reports) (hcap : capacity < 2 ^ 64)
    (h : Run A capacity maxAllocatorNodes b held) : b.HintCovers := by
  induction h with
  | new => exact le_rfl
  | allocate bytes hbyt hrun ih => exact ih.allocate hA (hrun.serves hcap)
  | release releases hrun hrls ih =>
    exact ih.release hA ((Run.release releases hrun hrls).serves hcap) hrls

/-- A request that the unit allocator serves passes the precheck. -/
theorem maySatisfy_of_allocate (hA : A.Reports) (hsrv : b.Serves capacity held)
    (hhint : b.HintCovers) (hbyt : 0 < bytes) (hsome : (b.allocateAfterPrecheck bytes).1 = some h) :
    b.maySatisfy bytes = true := by
  simp only [allocateAfterPrecheck] at hsome
  split at hsome
  case isFalse => cases hsome
  split at hsome
  case h_1 => cases hsome
  next hallocate =>
  have hquantum : 0 < 1 <<< b.quantumShift := by simp [one_shiftLeft]
  have hfits := mul_le_mul_right (2 ^ b.quantumShift) (hA.served_le hsrv.reach hallocate)
  have hcovered : bytes ≤ (A.storageReport b.inner).largestFreeRegion * 2 ^ b.quantumShift := by
    refine (Word.le_ceilDiv_mul bytes hquantum).trans ?_
    rwa [one_shiftLeft] at hfits ⊢
  have hmgd := mul_le_mul_right (2 ^ b.quantumShift) (hA.le_capacity hsrv.reach)
  rw [HintCovers, shiftLeft_eq] at hhint
  simp only [maySatisfy, decide_eq_true_eq]
  exact ⟨hbyt.ne', (hcovered.trans hmgd).trans_eq hsrv.managed_eq.symm, hcovered.trans hhint⟩

/-- The hint has no false negatives: after every sequence of allocations and releases, a
request that fails the precheck would fail under the mutex too. -/
theorem hint_has_no_false_negatives (hA : A.Reports) (hcapacity : capacity < 2 ^ 64)
    (hrun : Run A capacity maxAllocatorNodes b held) (hbytes : 0 < bytes)
    (hrefused : b.maySatisfy bytes = false) :
    (b.allocateAfterPrecheck bytes).1 = none := by
  cases hresult : (b.allocateAfterPrecheck bytes).1 with
  | none => rfl
  | some handle =>
    have hpassed := maySatisfy_of_allocate hA (hrun.serves hcapacity) (hrun.hintCovers hA hcapacity)
      hbytes hresult
    cases hrefused.symm.trans hpassed

/-- A segment of 16 bytes after an allocation of 12 bytes and one of 8 that fails. -/
theorem hint_has_no_false_negatives_tight :
    ∃ b held, Run bumpAllocator 16 8 b held ∧ b.largestFreeRegionHint = 4 ∧ b.maySatisfy 5 = false ∧
      (b.allocateAfterPrecheck 5).1 = none := by
  have hrun :=
    ((Run.new : Run bumpAllocator 16 8 _ _).allocate 12 (by decide)).allocate 8 (by decide)
  exact ⟨_, _, hrun, by decide, by decide,
    hint_has_no_false_negatives bumpAllocator_reports (by decide) hrun (by decide) (by decide)⟩

/-! ### Accounts -/

theorem pairwise_of_cons_cons {α : Type} {R : α → α → Prop} {l : List α}
    (h : ∀ x y rest, (l : Multiset α) = x ::ₘ y ::ₘ rest → R x y) : l.Pairwise R := by
  induction l with
  | nil => exact .nil
  | cons x xs ih =>
    refine List.pairwise_cons.mpr ⟨fun y hy => ?_, ih fun y z rest heq => h y z (x ::ₘ rest) ?_⟩
    · obtain ⟨rest, hrest⟩ := exists_cons_of_mem (mem_coe.mpr hy)
      exact h x y rest (by rw [← cons_coe, hrest])
    · rw [← cons_coe, heq, cons_swap x, cons_swap x]

/-- Disjoint ranges inside the segment have at most its length together. -/
theorem Serves.used_le (hA : A.Sound) (h : b.Serves capacity held) :
    b.usedBytes ≤ b.managedCapacity := by
  have hnd : (held.bind fun k => (range k.reservedBytes).map (k.offset + ·)).Nodup := by
    refine nodup_bind.mpr ⟨fun k _ => (nodup_range _).map (add_right_injective _), ?_⟩
    induction held using Quotient.inductionOn with | _ l => ?_
    refine ⟨l, rfl, pairwise_of_cons_cons fun k k' rest heq => ?_⟩
    have hapart := Set.disjoint_left.mp ((heq ▸ h : b.Serves capacity (k ::ₘ k' ::ₘ rest)).range_disjoint hA)
    refine disjoint_left.mpr fun {n} hn hn' => ?_
    simp only [mem_map, mem_range, Set.mem_Ico] at hn hn' hapart
    exact hapart (a := n) (by omega) (by omega)
  have hinside : (held.bind fun k => (range k.reservedBytes).map (k.offset + ·)) ⊆
      range b.managedCapacity := by
    intro n hn
    simp only [mem_bind, mem_map, mem_range] at hn ⊢
    obtain ⟨k, hk, _, _, rfl⟩ := hn
    have := h.range_inside hA hk
    omega
  have hcard := card_le_card ((le_iff_subset hnd).mpr hinside)
  simpa [card_bind, h.used_eq] using hcard

theorem Serves.live_le (hA : A.Sound) (h : b.Serves capacity held) :
    b.liveAllocations ≤ b.usedBytes := by
  have hsum := card_nsmul_le_sum (s := held.map (·.reservedBytes)) (a := 1) fun n hn => by
    obtain ⟨k, hk, rfl⟩ := mem_map.mp hn
    exact (h.scaled k hk).requested_pos.trans_le (h.requested_le_reserved hA hk)
  simpa [h.live_eq, h.used_eq] using hsum

theorem quantumShiftFrom_le (hshift : shift ≤ 32) (hcap : capacity < 2 ^ 64) :
    ∀ fuel, quantumShiftFrom capacity fuel shift ≤ 32
  | 0 => hshift
  | fuel + 1 => by
    unfold quantumShiftFrom
    split
    · next hlarge =>
      refine quantumShiftFrom_le (lt_of_le_of_ne hshift ?_) hcap fuel
      rintro rfl
      rw [Word.maxOf, shiftRight_eq_div_pow] at hlarge
      omega
    · exact hshift

/-- Every unit number is a byte number below 2⁶⁴. -/
theorem Serves.shift_lt (h : b.Serves capacity held) (hcap : capacity < 2 ^ 64)
    (hunits : units < 2 ^ 32) : units <<< b.quantumShift < 2 ^ 64 := by
  have hshift : b.quantumShift ≤ 32 := h.shift_eq ▸ quantumShiftFrom_le (zero_le _) hcap _
  rw [shiftLeft_eq]
  calc units * 2 ^ b.quantumShift < 2 ^ 32 * 2 ^ b.quantumShift :=
    Nat.mul_lt_mul_of_pos_right hunits (Nat.two_pow_pos _)
    _ ≤ 2 ^ 32 * 2 ^ 32 := Nat.mul_le_mul_left _ (Nat.pow_le_pow_right (by decide) hshift)
    _ = 2 ^ 64 := by norm_num

theorem Serves.lt_managed_add (h : b.Serves capacity held) :
    capacity < b.managedCapacity + 2 ^ b.quantumShift := by
  rw [h.managed_eq, shiftRight_eq_div_pow]
  exact Nat.lt_div_mul_add (Nat.two_pow_pos _)

/-! ### Batches of releases -/

/-- `release_many` for a group of handles with one owner. Allocators stand under their
addresses. -/
def releaseGroup (bs : ℕ → ByteAllocator A) :
    List (ℕ × OffsetAllocationHandle A) → Option (ℕ → ByteAllocator A)
  | [] => some bs
  | first :: rest => do
    let b ← (bs first.1).releaseMany ((first :: rest).map (·.2))
    some (update bs first.1 b)

def releaseBatch (bs : ℕ → ByteAllocator A) (handles : List (ℕ × OffsetAllocationHandle A)) :
    Option (ℕ → ByteAllocator A) :=
  (entryGroups (·.1) handles).foldlM releaseGroup bs

/-- The handles go out of scope, one after the other. -/
def dropEach (bs : ℕ → ByteAllocator A) (handles : List (ℕ × OffsetAllocationHandle A)) :
    Option (ℕ → ByteAllocator A) :=
  (handles.map ([·])).foldlM releaseGroup bs

def owned (handles : List (ℕ × OffsetAllocationHandle A)) (i : ℕ) :
    List (OffsetAllocationHandle A) :=
  (handles.filter (·.1 = i)).map (·.2)

variable {bs : ℕ → ByteAllocator A} {capacities : ℕ → ℕ}
  {rest : ℕ → Multiset (OffsetAllocationHandle A)}

theorem releaseGroup_serves {group more : List (ℕ × OffsetAllocationHandle A)}
    (huniform : ∀ x ∈ group, ∀ y ∈ group, x.1 = y.1)
    (h : ∀ i, (bs i).Serves (capacities i) (owned (group ++ more) i + rest i)) :
    ∃ bs', releaseGroup bs group = some bs' ∧
    ∀ i, (bs' i).Serves (capacities i) (owned more i + rest i) := by
  cases group with
  | nil => exact ⟨bs, rfl, h⟩
  | cons first others =>
    have howd : ∀ i, owned (first :: others ++ more) i =
        if i = first.1 then (first :: others).map (·.2) ++ owned more i else owned more i := by
      intro i
      rw [owned, List.filter_append, List.map_append]
      split
      · next hi =>
        rw [List.filter_eq_self.mpr fun x hx => decide_eq_true ((huniform x hx first (by simp)).trans hi.symm)]
        rfl
      · next hi =>
        have hnone : (first :: others).filter (·.1 = i) = [] := List.filter_eq_nil_iff.mpr fun x hx heq =>
          hi ((of_decide_eq_true heq).symm.trans (huniform x hx first (by simp)))
        rw [hnone]
        rfl
    have hfirst := h first.1
    rw [howd, if_pos rfl, ← coe_add, add_assoc] at hfirst
    obtain ⟨b, hb, _⟩ := hfirst.releaseMany
    refine ⟨update bs first.1 b, by simp only [releaseGroup, hb]; rfl, fun i => ?_⟩
    by_cases hi : i = first.1
    · subst hi
      rwa [update_self]
    · rw [update_of_ne hi]
      have hoth := h i
      rwa [howd, if_neg hi] at hoth

theorem releaseGroups_serves {groups : List (List (ℕ × OffsetAllocationHandle A))}
    (huniform : ∀ group ∈ groups, ∀ x ∈ group, ∀ y ∈ group, x.1 = y.1)
    (h : ∀ i, (bs i).Serves (capacities i) (owned groups.flatten i + rest i)) :
    ∃ bs', groups.foldlM releaseGroup bs = some bs' ∧
    ∀ i, (bs' i).Serves (capacities i) (rest i) := by
  induction groups generalizing bs with
  | nil => exact ⟨bs, rfl, fun i => by simpa [owned] using h i⟩
  | cons group groups ih =>
    obtain ⟨hgroup, hgroups⟩ := List.forall_mem_cons.mp huniform
    obtain ⟨_, hreleased, h₁⟩ := releaseGroup_serves hgroup h
    obtain ⟨bs₂, hrest, h₂⟩ := ih hgroups h₁
    exact ⟨bs₂, by rw [List.foldlM_cons, hreleased]; exact hrest, h₂⟩

theorem entryGroups_uniform {α : Type} {entry : α → ℕ} {batch group : List α}
    (h : group ∈ entryGroups entry batch) :
    ∀ x ∈ group, ∀ y ∈ group, entry x = entry y := by
  have hchain : group.IsChain fun x y =>
    entry x = entry y := by simpa using List.isChain_of_mem_splitBy h
  have htrans : IsTrans α fun x y => entry x = entry y := ⟨fun _ _ _ => Eq.trans⟩
  have hsymm : Std.Symm fun x y : α => entry x = entry y := ⟨fun _ _ => Eq.symm⟩
  exact (List.isChain_iff_pairwise.mp hchain).forall_of_forall fun _ _ => rfl

theorem owned_perm {handles order : List (ℕ × OffsetAllocationHandle A)}
    (h : order.Perm handles) (i : ℕ) :
    (owned order i : Multiset (OffsetAllocationHandle A)) = owned handles i :=
  coe_eq_coe.mpr ((h.filter _).map _)

/-- A batch of releases and single drops, in whatever order, leave allocators with the
same live handles. -/
theorem releaseBatch_serves {handles order order' : List (ℕ × OffsetAllocationHandle A)}
    (horder : order.Perm handles) (horder' : order'.Perm handles)
    (h : ∀ i, (bs i).Serves (capacities i) (owned handles i + rest i)) :
    ∃ bs₁ bs₂, releaseBatch bs order = some bs₁ ∧ dropEach bs order' = some bs₂ ∧
      ∀ i, (bs₁ i).Serves (capacities i) (rest i) ∧ (bs₂ i).Serves (capacities i) (rest i) := by
  have hbatched : ∀ i, (bs i).Serves (capacities i)
      (owned (entryGroups (·.1) order).flatten i + rest i) := fun i => by
    rw [owned_perm ((flatten_entryGroups_perm _ order).trans horder)]
    exact h i
  have hsingle : ∀ i, (bs i).Serves (capacities i) (owned (order'.map ([·])).flatten i + rest i) :=
      fun i => by
    rw [← List.flatMap_def, List.flatMap_singleton', owned_perm horder']
    exact h i
  obtain ⟨bs₁, hbat, h₁⟩ := releaseGroups_serves (fun _ => entryGroups_uniform) hbatched
  obtain ⟨bs₂, hdrops, h₂⟩ := releaseGroups_serves (by simp +contextual [eq_comm]) hsingle
  exact ⟨bs₁, bs₂, hbat, hdrops, fun i => ⟨h₁ i, h₂ i⟩⟩

/-- The accounts of an allocator after every sequence of allocations and releases, and
what a batch of releases leaves in the allocators of its handles. -/
theorem accounts_kept (hA : A.Sound) :
    (∀ capacity maxAllocatorNodes b held, 0 < capacity → capacity < 2 ^ 64 →
      Run A capacity maxAllocatorNodes b held → b.usedBytes = (held.map (·.reservedBytes)).sum ∧
      b.usedBytes ≤ b.managedCapacity ∧ b.liveAllocations = held.card ∧ b.liveAllocations < 2 ^ 64 ∧
      capacity < b.managedCapacity + 2 ^ b.quantumShift ∧ b.managedCapacity < 2 ^ 64 ∧
      (∀ units < 2 ^ 32, units <<< b.quantumShift < 2 ^ 64) ∧
      (∀ bytes < 2 ^ 64, Word.ceilDiv bytes (1 <<< b.quantumShift) < 2 ^ 64) ∧
      (∀ h ∈ held,
        h.requestedBytes ≤ h.reservedBytes ∧ h.offset + h.reservedBytes ≤ b.managedCapacity) ∧
      ∀ (releases : List (OffsetAllocationHandle A)) kept, held = ↑releases + kept →
        (b.releaseMany releases).isSome) ∧
    ∀ (bs : ℕ → ByteAllocator A) (capacities maxAllocatorNodes : ℕ → ℕ) handles
      (rest : ℕ → Multiset (OffsetAllocationHandle A)) order order',
      (∀ i, capacities i < 2 ^ 64 ∧ Run A (capacities i) (maxAllocatorNodes i) (bs i)
        (↑(owned handles i) + rest i)) → order.Perm handles → order'.Perm handles →
      ∃ bs₁ bs₂, releaseBatch bs order = some bs₁ ∧ dropEach bs order' = some bs₂ ∧ ∀ i,
        (bs₁ i).usedBytes = (bs₂ i).usedBytes ∧ (bs₁ i).liveAllocations = (bs₂ i).liveAllocations ∧
        (bs₁ i).Serves (capacities i) (rest i) ∧ (bs₂ i).Serves (capacities i) (rest i) := by
  constructor
  · intro capacity maxAllocatorNodes b held _ hcapacity hrun
    have hserves := hrun.serves hcapacity
    have hmanaged := hserves.managed_le.trans_lt hcapacity
    have hused := hserves.used_le hA
    refine ⟨hserves.used_eq, hused, hserves.live_eq, ((hserves.live_le hA).trans hused).trans_lt
      hmanaged, hserves.lt_managed_add, hmanaged, fun units => hserves.shift_lt hcapacity,
      fun bytes hbytes => (Word.ceilDiv_le bytes (by simp [one_shiftLeft])).trans_lt hbytes,
      fun h hh => ⟨hserves.requested_le_reserved hA hh, hserves.range_inside hA hh⟩, ?_⟩
    rintro releases kept rfl
    obtain ⟨_, hb', -⟩ := hserves.releaseMany
    simp [hb']
  · intro bs capacities maxAllocatorNodes handles rest order order' hruns horder horder'
    obtain ⟨bs₁, bs₂, hbatch, hdrops, h⟩ := releaseBatch_serves horder horder' fun i =>
      (hruns i).2.serves (hruns i).1
    refine ⟨bs₁, bs₂, hbatch, hdrops, fun i => ⟨?_, ?_, h i⟩⟩
    · rw [(h i).1.used_eq, (h i).2.used_eq]
    · rw [(h i).1.live_eq, (h i).2.live_eq]

/-- A segment of 16 bytes that has served two requests, and more of them that are unused. -/
def twoServed : ℕ → ByteAllocator bumpAllocator
  | 0 => (((new bumpAllocator 16 8).allocateAfterPrecheck 12).2.allocateAfterPrecheck 4).2
  | _ + 1 => new bumpAllocator 16 8

theorem accounts_kept_served : bumpAllocator.Sound ∧ (twoServed 0).liveAllocations = 2 ∧
    (twoServed 0).usedBytes ≤ 16 ∧
    ∃ h₁ h₂ bs₁ bs₂, releaseBatch twoServed [(0, h₁), (0, h₂)] = some bs₁ ∧
      dropEach twoServed [(0, h₂), (0, h₁)] = some bs₂ ∧ (bs₁ 0).usedBytes = (bs₂ 0).usedBytes := by
  have hrun :=
    ((Run.new : Run bumpAllocator 16 8 _ _).allocate 12 (by decide)).allocate 4 (by decide)
  have hkept := accounts_kept bumpAllocator_sound
  have hserved := hkept.1 16 8 _ _ (by decide) (by decide) hrun
  obtain ⟨bs₁, bs₂, hbatch, hdrops, hsame⟩ := hkept.2 twoServed (fun _ => 16) (fun _ => 8)
    [(0, ⟨⟨12, 4⟩, 12, 4, 4⟩), (0, ⟨⟨0, 12⟩, 0, 12, 12⟩)] 0 _ _ (fun i => ⟨by decide, by
      cases i with
      | zero => exact hrun
      | succ i => exact .new⟩) (.refl _) (.swap ..)
  exact ⟨bumpAllocator_sound, rfl, hserved.2.1, _, _, bs₁, bs₂, hbatch, hdrops, (hsame 0).1⟩

end ByteAllocator

end Cakemaster.Segment
