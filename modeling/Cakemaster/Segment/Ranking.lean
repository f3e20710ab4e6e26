import Cakemaster.Machine.Total
import Cakemaster.Segment.CatalogRuns
import Mathlib.Algebra.Order.Field.Basic
import Mathlib.Algebra.Order.Ring.Rat
import Mathlib.Data.Prod.Lex

/-!
# The ranking of placement candidates

The comparator of the free-capacity policy compares free ratios by cross-multiplication. For
positive capacities it is the order of a key, so sorting by it has exactly one outcome.
-/

namespace Cakemaster.Segment

open Machine Machine.Prog OrderDual FreeCapacityPolicy List Nat

variable {A : UnitAllocator}

namespace RankedCandidate

/-- The closure that `order` sorts by. -/
def compareTo (left right : RankedCandidate) : Ordering :=
  (compare left.preference right.preference).then <|
  (compare (right.stats.space.availableBytes * left.stats.space.capacityBytes)
    (left.stats.space.availableBytes * right.stats.space.capacityBytes)).then <|
  (compare right.stats.space.largestFreeRegionBytes left.stats.space.largestFreeRegionBytes).then <|
  (compare left.id.high right.id.high).then (compare left.id.low right.id.low)

/-- The statistics are `u64` values and the capacity is positive. -/
structure Measured (c : RankedCandidate) : Prop where
  capacity_pos : 0 < c.stats.space.capacityBytes
  capacity_lt : c.stats.space.capacityBytes < 2 ^ 64
  available_lt : c.stats.space.availableBytes < 2 ^ 64

def freeRatio (c : RankedCandidate) : ℚ :=
  c.stats.space.availableBytes / c.stats.space.capacityBytes

/-- Preference, then the higher free ratio, then the larger free region, then the id. -/
def key (c : RankedCandidate) : ℕ ×ₗ ℚᵒᵈ ×ₗ ℕᵒᵈ ×ₗ ℕ ×ₗ ℕ :=
  toLex (c.preference, toLex (toDual c.freeRatio,
    toLex (toDual c.stats.space.largestFreeRegionBytes, toLex (c.id.high, c.id.low))))

variable {left right : RankedCandidate}

theorem freeRatio_lt_iff (hleft : left.Measured) (hright : right.Measured) :
    right.freeRatio < left.freeRatio ↔ right.stats.space.availableBytes * left.stats.space.capacityBytes <
      left.stats.space.availableBytes * right.stats.space.capacityBytes := by
  rw [freeRatio, freeRatio, div_lt_div_iff₀ (cast_pos.mpr hright.capacity_pos)
    (Nat.cast_pos.mpr hleft.capacity_pos)]
  norm_cast

theorem compareTo_lt_iff (hleft : left.Measured) (hright : right.Measured) :
    left.compareTo right = .lt ↔ left.key < right.key := by
  have hlt := freeRatio_lt_iff hleft hright
  have hgt := freeRatio_lt_iff hright hleft
  have heq : left.freeRatio = right.freeRatio ↔
      right.stats.space.availableBytes * left.stats.space.capacityBytes =
      left.stats.space.availableBytes * right.stats.space.capacityBytes := by
    rw [le_antisymm_iff, ← not_lt, ← not_lt, hlt, hgt]
    omega
  simp only [compareTo, key, Ordering.then_eq_lt, Nat.compare_eq_lt, Nat.compare_eq_eq,
    Prod.Lex.toLex_lt_toLex, toDual_lt_toDual, toDual_inj, hlt, heq,
    eq_comm (a := right.stats.space.largestFreeRegionBytes)]

theorem id_eq_of_key_eq (h : left.key = right.key) : left.id = right.id := by
  obtain ⟨-, h⟩ := Prod.mk.inj (toLex.injective h)
  obtain ⟨-, h⟩ := Prod.mk.inj (toLex.injective h)
  obtain ⟨-, h⟩ := Prod.mk.inj (toLex.injective h)
  obtain ⟨_, _⟩ := Prod.mk.inj (toLex.injective h)
  cases hl : left.id
  cases hr : right.id
  simp_all

/-- The sort keeps two candidates in place unless the comparator puts the second one first. -/
theorem before_iff : before left right = true ↔ right.compareTo left ≠ .lt := by
  simp only [before, compareTo, SegmentId.le, ne_eq, Ordering.then_eq_lt, Nat.compare_eq_lt,
    Nat.compare_eq_eq]
  split
  · simp only [decide_eq_true_eq]
    omega
  split
  · simp only [decide_eq_true_eq]
    omega
  split <;> simp only [decide_eq_true_eq] <;> omega

/-- On these candidates the comparator is a strict total order whose products fit in `u128`. -/
structure StrictlyOrdered (cs : List RankedCandidate) : Prop where
  irrefl : ∀ a ∈ cs, a.compareTo a ≠ .lt
  trans : ∀ a ∈ cs, ∀ b ∈ cs, ∀ c ∈ cs, a.compareTo b = .lt → b.compareTo c = .lt →
    a.compareTo c = .lt
  total : ∀ a ∈ cs, ∀ b ∈ cs, a ≠ b → a.compareTo b = .lt ∨ b.compareTo a = .lt
  fits : ∀ a ∈ cs, ∀ b ∈ cs, a.stats.space.availableBytes * b.stats.space.capacityBytes < 2 ^ 128

variable {cs : List RankedCandidate} (hmeas : ∀ c ∈ cs, c.Measured) (hids : (cs.map (·.id)).Nodup)
include hmeas hids

theorem strictlyOrdered : StrictlyOrdered cs := by
  have hlt : ∀ a ∈ cs, ∀ b ∈ cs, a.compareTo b = .lt ↔ a.key < b.key :=
    fun a ha b hb => compareTo_lt_iff (hmeas a ha) (hmeas b hb)
  constructor
  · intro a ha
    rw [ne_eq, hlt a ha a ha]
    exact lt_irrefl _
  · intro a ha b hb c hc hab hbc
    rw [hlt _ ‹_› _ ‹_›] at hab hbc ⊢
    exact hab.trans hbc
  · intro a ha b hb hne
    rw [hlt a ha b hb, hlt b hb a ha]
    refine lt_or_gt_of_ne fun hkey => hne ?_
    exact inj_on_of_nodup_map hids ha hb (id_eq_of_key_eq hkey)
  · intro a ha b hb
    calc a.stats.space.availableBytes * b.stats.space.capacityBytes
        < 2 ^ 64 * 2 ^ 64 := mul_lt_mul'' (hmeas a ha).available_lt (hmeas b hb).capacity_lt
      _ = 2 ^ 128 := rfl

theorem pairwise_sorted : (cs.insertionSort fun a b => before a b).Pairwise (·.key < ·.key) := by
  have hsort : cs.insertionSort (fun a b => before a b) = cs.insertionSort (·.key ≤ ·.key) := by
    have hmap := map_insertionSort (fun a b => before a b = true) (·.key ≤ ·.key) (fun c => c) cs
      fun a ha b hb => by rw [before_iff, ne_eq, compareTo_lt_iff (hmeas b hb) (hmeas a ha), not_lt]
    simpa using hmap
  have hnd : ((cs.insertionSort (·.key ≤ ·.key)).map (·.id)).Nodup :=
    ((perm_insertionSort _ cs).map _).nodup_iff.mpr hids
  rw [hsort]
  have : Std.Total fun a b : RankedCandidate => a.key ≤ b.key := ⟨fun a b => le_total _ _⟩
  have : IsTrans RankedCandidate fun a b => a.key ≤ b.key := ⟨fun a b c => le_trans⟩
  refine ((pairwise_insertionSort (fun a b : RankedCandidate => a.key ≤ b.key) cs).and
    (pairwise_map.mp hnd)).imp fun ⟨hle, hne⟩ => hle.lt_of_ne ?_
  exact fun hkey => hne (id_eq_of_key_eq hkey)

/-- Two lists of these candidates that the comparator finds sorted are the same. -/
theorem eq_of_sorted {l l' : List RankedCandidate} (hl : l.Perm cs) (hl' : l'.Perm cs)
    (hsrt : l.Pairwise (·.compareTo · = .lt)) (hsrt' : l'.Pairwise (·.compareTo · = .lt)) :
    l = l' := by
  have hordered := strictlyOrdered hmeas hids
  refine (hl.trans hl'.symm).eq_of_pairwise (fun a b ha hb hab hba => ?_) hsrt hsrt'
  have ha := hl.mem_iff.mp ha
  exact absurd (hordered.trans a ha b (hl'.mem_iff.mp hb) a ha hab hba) (hordered.irrefl a ha)

end RankedCandidate

namespace FreeCapacityPolicy

open RankedCandidate

/-- The preference of a name: the position at which it first stands in the list. -/
def Prefers (names : List String) (name : String) (preference : ℕ) : Prop :=
  (names[preference]? = some name ∧ ∀ n < preference, names[n]? ≠ some name) ∨
    name ∉ names ∧ preference = 2 ^ 64 - 1

/-- An accepting segment of the snapshot with room for the request that is not excluded,
with its statistics. -/
structure Eligible (p : SegmentPool A) (request : PlacementRequest) (snapshot : PoolSnapshot)
    (c : RankedCandidate) : Prop where
  listed : c.candidate ∈ snapshot.candidates
  measured : ∃ e, p.entryOf c.candidate = some e ∧ c.id = e.spec.identity.id ∧ c.stats = e.stats ∧
    Prefers request.constraints.preferredNames e.spec.identity.name c.preference
  accepting : c.stats.state = .accepting
  fits : request.allocation.bytes ≤ c.stats.space.availableBytes
  allowed : c.id ∉ request.constraints.excludedSegments

theorem prefers_iff (request : PlacementRequest) (spec : SegmentSpec) (preference : ℕ) :
    Prefers request.constraints.preferredNames spec.identity.name preference ↔
      preference = preferenceRank request spec := by
  unfold Prefers preferenceRank
  cases hfnd : request.constraints.preferredNames.findIdx? (· = spec.identity.name) with
  | none =>
    have hall : ∀ name ∈ request.constraints.preferredNames, name ≠ spec.identity.name := by
      simpa using findIdx?_eq_none_iff.mp hfnd
    have habs : spec.identity.name ∉ request.constraints.preferredNames := fun h => hall _ h rfl
    have hno : request.constraints.preferredNames[preference]? ≠ some spec.identity.name :=
      fun h => habs (mem_of_getElem? h)
    simp [hno, habs, Word.maxOf]
  | some first =>
    obtain ⟨hlt, hname, hleast⟩ := findIdx?_eq_some_iff_getElem.mp hfnd
    have hfst : request.constraints.preferredNames[first]? = some spec.identity.name := by
      simpa [hlt] using hname
    have hmin : ∀ n < first, request.constraints.preferredNames[n]? ≠ some spec.identity.name := by
      intro n hn h
      have hne := hleast n hn
      rw [getElem?_eq_getElem (hn.trans hlt), Option.some.injEq] at h
      simp [h] at hne
    constructor
    · rintro (⟨hpref, hleast'⟩ | ⟨habs, -⟩)
      · exact le_antisymm (not_lt.mp fun h => hleast' first h hfst)
          (not_lt.mp fun h => hmin preference h hpref)
      · exact absurd (mem_of_getElem? hfst) habs
    · rintro rfl
      exact .inl ⟨hfst, hmin⟩

/-- The eligible candidates of a snapshot with their statistics. -/
def eligible (p : SegmentPool A) (request : PlacementRequest) (candidates : List SegmentHandle) :
    List RankedCandidate :=
  candidates.filterMap fun candidate => (p.entryOf candidate).bind (rank request candidate)

theorem mem_eligible_iff {p : SegmentPool A} {request : PlacementRequest} {snapshot : PoolSnapshot}
    {c : RankedCandidate} :
    c ∈ eligible p request snapshot.candidates ↔ Eligible p request snapshot c := by
  simp only [eligible, mem_filterMap, Option.bind_eq_some_iff, rank, Option.ite_none_right_eq_some,
    Option.some.injEq]
  constructor
  · rintro ⟨candidate, hlst, e, he, ⟨hacc, hfits, hald⟩, rfl⟩
    have hst : e.stats.state = .accepting := by simpa [SegmentState.isAccepting] using hacc
    exact ⟨hlst, ⟨e, he, rfl, rfl, (prefers_iff _ _ _).mpr rfl⟩, hst, hfits, hald⟩
  · rintro ⟨hlst, ⟨e, he, hid, hstats, hpref⟩, hacc, hfits, hald⟩
    rw [hstats] at hacc hfits
    rw [hid] at hald
    refine ⟨c.candidate, hlst, e, he, ⟨by simp [SegmentState.isAccepting, hacc], hfits, hald⟩, ?_⟩
    rw [← hid, ← hstats, ← (prefers_iff _ _ _).mp hpref]

theorem nodup_eligible {p : SegmentPool A} {request : PlacementRequest}
    {candidates : List SegmentHandle} (h : candidates.Nodup) :
    (eligible p request candidates).Nodup := by
  refine h.filterMap fun k k' c hk hk' => ?_
  simp only [Option.mem_def, Option.bind_eq_some_iff, rank, Option.ite_none_right_eq_some,
    Option.some.injEq] at hk hk'
  obtain ⟨_, -, -, rfl⟩ := hk
  obtain ⟨_, -, -, hk'⟩ := hk'
  exact (congrArg RankedCandidate.candidate hk').symm

theorem total_collect (p : SegmentPool A) (request : PlacementRequest)
    (candidates : List SegmentHandle) (ranked : List RankedCandidate) {β : Type}
    {k : List RankedCandidate → Prog (SegmentPool A) β} {post : β → SegmentPool A → Prop} :
    Total ((foldOver (fun ranked candidate => do
      let found ← read fun p => (p.entryOf candidate).bind (rank request candidate)
      return ranked ++ found.toList) candidates ranked).bind k) p post ↔
    Total (k (ranked ++ eligible p request candidates)) p post := by
  induction candidates generalizing ranked with
  | nil => simp [foldOver, eligible]
  | cons candidate rest ih =>
    simp only [foldOver, bind_eq, pure_eq, bind_assoc, Total.read_iff, ret_bind] at ih ⊢
    rw [ih]
    cases hfnd : (p.entryOf candidate).bind (rank request candidate) <;> simp [eligible, hfnd]

/-- Run alone, `order` sorts the eligible candidates. -/
theorem total_order (p : SegmentPool A) (snapshot : PoolSnapshot) (request : PlacementRequest) :
    Total (order snapshot request) p fun handles p' => p' = p ∧ handles =
      ((eligible p request snapshot.candidates).insertionSort fun a b => before a b).map (·.candidate) :=
  (total_collect p request snapshot.candidates []).mpr (Total.ret_iff.mpr ⟨rfl, rfl⟩)

end FreeCapacityPolicy

/-- The units of a nonempty region are at least one after scaling. -/
theorem quantumShiftFrom_pos (h : 0 < capacity >>> shift) :
    0 < capacity >>> quantumShiftFrom capacity fuel shift := by
  induction fuel generalizing shift with
  | zero => exact h
  | succ fuel ih =>
    unfold quantumShiftFrom
    split
    next hlarge =>
      refine ih ?_
      rw [shiftRight_succ]
      unfold Word.maxOf at hlarge
      omega
    · exact h

theorem EntryInvariant.capacity_pos {e : SegmentEntry A}
    {held : Multiset (OffsetAllocationHandle A)} (he : EntryInvariant e held) :
    0 < e.stats.space.capacityBytes := by
  have hunits : 0 < e.spec.region.size >>> e.allocator.quantumShift :=
    he.serves.shift_eq ▸ quantumShiftFrom_pos he.range.1
  change 0 < e.allocator.managedCapacity
  rw [he.serves.managed_eq]
  exact Nat.mul_pos hunits (Nat.two_pow_pos _)

/-- Every mounted segment of a pool has a positive capacity. For candidates of positive
capacity with distinct ids, the comparator is a strict total order without overflow, and
`order` returns the one list of the eligible candidates that it finds sorted, in whatever
order the snapshot lists them. -/
theorem candidates_ranked (hA : A.Sound) {poolId : ℕ} {config : SegmentPoolConfig}
    {p : SegmentPool A} (hnew : SegmentPool.withConfig A poolId config = .ok p) (ops : List PoolOp)
    {replies : List (PoolReply A)} {sys : PoolSystem A}
    (hrun : PoolSystem.run { pool := p, outstanding := [] } ops = some (replies, sys))
    {cs : List RankedCandidate} (hmeasured : ∀ c ∈ cs, c.Measured) (hids : (cs.map (·.id)).Nodup) :
    (∀ e ∈ sys.pool.mountedEntries, 0 < e.stats.space.capacityBytes) ∧
    RankedCandidate.StrictlyOrdered cs ∧
    ∃ ranked : List RankedCandidate, ranked.Perm cs ∧ ranked.Pairwise (·.key < ·.key) ∧
      (∀ other : List RankedCandidate, other.Perm cs → other.Pairwise (·.compareTo · = .lt) → other = ranked) ∧
      ∀ (q : SegmentPool A) (snapshot : PoolSnapshot) (request : PlacementRequest),
        snapshot.candidates.Nodup →
        (∀ c, c ∈ cs ↔ FreeCapacityPolicy.Eligible q request snapshot c) →
        Total (FreeCapacityPolicy.order snapshot request) q fun handles q' =>
          q' = q ∧ handles = ranked.map (·.candidate) := by
  have hsorted : ∀ {l : List RankedCandidate}, l.Perm cs →
      (l.insertionSort fun a b => FreeCapacityPolicy.before a b).Perm cs ∧
      (l.insertionSort fun a b => FreeCapacityPolicy.before a b).Pairwise (·.compareTo · = .lt) := by
    intro l hl
    have hperm := (perm_insertionSort (fun a b => FreeCapacityPolicy.before a b = true) l).trans hl
    refine ⟨hperm, (RankedCandidate.pairwise_sorted (fun c hc => hmeasured c (hl.mem_iff.mp hc))
      ((hl.map _).nodup_iff.mpr hids)).imp_of_mem fun ha hb hlt => ?_⟩
    exact (RankedCandidate.compareTo_lt_iff (hmeasured _ (hperm.mem_iff.mp ha))
      (hmeasured _ (hperm.mem_iff.mp hb))).mpr hlt
  obtain ⟨hperm, hcompare⟩ := hsorted (.refl cs)
  refine ⟨?_, RankedCandidate.strictlyOrdered hmeasured hids, _, hperm,
    RankedCandidate.pairwise_sorted hmeasured hids, fun other hother hordered =>
      RankedCandidate.eq_of_sorted hmeasured hids hother hperm hordered hcompare, ?_⟩
  · intro e he
    obtain ⟨_, -, href⟩ := mem_filterMap.mp he
    obtain ⟨_, _, hrun', hsys, -⟩ := PoolSystem.run_keeps hA (PoolSystem.invariant_new hnew) ops
    cases hrun.symm.trans hrun'
    exact (hsys.pool.mounts.entry href).capacity_pos
  · intro q snapshot request hnd heligible
    have hall : (FreeCapacityPolicy.eligible q request snapshot.candidates).Perm cs :=
      (perm_ext_iff_of_nodup (FreeCapacityPolicy.nodup_eligible hnd) (.of_map _ hids)).mpr
        fun c => FreeCapacityPolicy.mem_eligible_iff.trans (heligible c).symm
    obtain ⟨hperm', hcompare'⟩ := hsorted hall
    obtain ⟨hruns, hpost⟩ := FreeCapacityPolicy.total_order q snapshot request
    refine ⟨hruns, fun handles q' hrun => ?_⟩
    obtain ⟨rfl, rfl⟩ := hpost handles q' hrun
    exact ⟨rfl, congrArg _ (RankedCandidate.eq_of_sorted hmeasured hids hperm' hperm hcompare' hcompare)⟩

namespace Sample

open PoolSystem

def first : RankedCandidate := ⟨⟨1, 0⟩, ⟨0, 1⟩, (freshEntry firstSpec).stats, 2 ^ 64 - 1⟩

def second : RankedCandidate := ⟨⟨1, 1⟩, ⟨0, 2⟩, (freshEntry secondSpec).stats, 0⟩

end Sample

open Sample

/-- Of two segments with equal statistics the preferred one comes first. -/
theorem candidates_ranked_preferred :
    let request : PlacementRequest := ⟨⟨4⟩, ⟨["second"], []⟩⟩
    let pool := (PoolSystem.twoSegments 2 2).pool
    Total (FreeCapacityPolicy.order (pool.snapshotFor .memory) request) pool fun handles q =>
      q = pool ∧ handles = [⟨1, 1⟩, ⟨1, 0⟩] := by
  intro request pool
  have hmeas : ∀ c ∈ [first, second], c.Measured := by
    simp only [forall_mem_cons]
    exact ⟨⟨by decide, by decide, by decide⟩, ⟨by decide, by decide, by decide⟩, by simp⟩
  have hall : FreeCapacityPolicy.eligible pool request (pool.snapshotFor .memory).candidates =
      [first, second] := rfl
  obtain ⟨-, -, _, -, -, huniq, horder⟩ := candidates_ranked bumpAllocator_sound
    (SegmentPool.withConfig_default bumpAllocator 1) _ PoolSystem.run_twoSegments hmeas (by decide)
  have hranked := huniq [second, first] (.swap _ _ _) (by decide)
  rw [← hranked] at horder
  exact horder pool _ request (by decide) fun c => by rw [← hall, FreeCapacityPolicy.mem_eligible_iff]

end Cakemaster.Segment
