import Cakemaster.Object.CatalogRuns
import Mathlib.Algebra.BigOperators.Ring.Finset
import Mathlib.Data.Int.ModEq

/-!
# The index of slots

A slot that is in use is the one found under its identity. The number of slots counts
the indexed ones, up to what running calls have not counted yet, and an indexed slot that
is empty is waiting to be cleaned up.
-/

namespace Cakemaster.Object

open Machine Segment Function View Finset Sample Bool

variable {A : UnitAllocator} {x x' : Ghost A} {u u' : View A} {gs : ℕ → Ghost A} {t : ℕ}
  {p : SlotRef × Bool}

/-! ### Counting -/

/-- What counting the slot, or the end of it, adds to the number of slots. -/
def countOf (isNew : Bool) : ℤ := if isNew then 1 else -1

/-- The counters after the move are those before it, a slot enters or leaves the index,
or a call counts what it did to the index. -/
inductive Tallies (u : View A) (x : Ghost A) (u' : View A) (x' : Ghost A) : Prop
  | same (hslct : u'.slotCount = u.slotCount) (hctr : u'.counter = u.counter)
      (hcntd : ∀ s, (u'.slots s).counted = (u.slots s).counted)
      (hidx : ∀ s, u'.indexed s = u.indexed s) (hunc : x'.uncounted = x.uncounted)
  | insert (hslct : u'.slotCount = u.slotCount + 1) (hctr : u'.counter = u.counter)
      (hcntd : ∀ s, s ≠ u.slotCount → (u'.slots s).counted = (u.slots s).counted)
      (hzero : (u'.slots u.slotCount).counted = 0)
      (hidx : ∀ s, s ≠ u.slotCount → u'.indexed s = u.indexed s)
      (hnew : u'.indexed u.slotCount = true) (hnone : x.uncounted = none)
      (hunc : x'.uncounted = some (u.slotCount, true))
  | unindex (s : SlotRef) (hslct : u'.slotCount = u.slotCount) (hctr : u'.counter = u.counter)
      (hcntd : ∀ s, (u'.slots s).counted = (u.slots s).counted)
      (hlt : s < u.slotCount) (hold : u.indexed s = true) (hgone : u'.indexed s = false)
      (hidx : ∀ s', s' ≠ s → u'.indexed s' = u.indexed s') (hnone : x.uncounted = none)
      (hunc : x'.uncounted = some (s, false))
  | count (s : SlotRef) (isNew : Bool) (hslct : u'.slotCount = u.slotCount)
      (hctr : (u'.counter.value : ℤ) ≡ u.counter.value + countOf isNew [ZMOD 2 ^ 64])
      (hbd : u.counter.value < 2 ^ 64 → u'.counter.value < 2 ^ 64)
      (hcntd : (u'.slots s).counted = (u.slots s).counted + countOf isNew)
      (hoths : ∀ s', s' ≠ s → (u'.slots s').counted = (u.slots s').counted)
      (hidx : ∀ s, u'.indexed s = u.indexed s)
      (hsome : x.uncounted = some (s, isNew)) (hunc : x'.uncounted = none)

namespace View

theorem indexed_of_update (hslots : u'.slots = update u.slots s y)
    (hlook : u'.lookup = u.lookup) (hiden : y.identity = (u.slots s).identity) (s' : SlotRef) :
    u'.indexed s' = u.indexed s' := by
  by_cases hs : s' = s
  · subst hs
    simp [indexed, hslots, hlook, hiden]
  · simp [indexed, hslots, hlook, hs]

theorem counted_of_update (hslots : u'.slots = update u.slots s y)
    (hcntd : y.counted = (u.slots s).counted) (s' : SlotRef) :
    (u'.slots s').counted = (u.slots s').counted := by
  by_cases hs : s' = s
  · subst hs
    simp [hslots, hcntd]
  · simp [hslots, hs]

end View

namespace Counter

theorem add_one_modEq (c : Counter) : ((c.add 1).value : ℤ) ≡ c.value + 1 [ZMOD 2 ^ 64] := by
  change (((c.value + 1) % 2 ^ 64 : ℕ) : ℤ) ≡ c.value + 1 [ZMOD 2 ^ 64]
  push_cast
  exact Int.mod_modEq _ _

theorem fetchSub_one_modEq (c : Counter) :
    ((c.fetchSub 1).value : ℤ) ≡ c.value + -1 [ZMOD 2 ^ 64] := by
  unfold fetchSub
  split
  case isTrue h =>
    rw [show ((c.value - 1 : ℕ) : ℤ) = c.value + -1 by omega]
  case isFalse h =>
    refine Int.modEq_iff_dvd.mpr ⟨-1, ?_⟩
    push_cast
    omega

end Counter

theorem Move.tallies (hu : u.Wellformed) (h : Move u x u' x') : Tallies u x u' x' := by
  have hset : ∀ {s y}, u'.slots = update u.slots s y → u'.lookup = u.lookup →
      y.identity = (u.slots s).identity → y.counted = (u.slots s).counted → u'.slotCount =
      u.slotCount → u'.counter = u.counter → x'.uncounted = x.uncounted → Tallies u x u' x' :=
    fun hslots hlook hiden hcntd hslct hctr hunc =>
      .same hslct hctr (counted_of_update hslots hcntd)
        (indexed_of_update hslots hlook hiden) hunc
  cases h with
  | @insert identity owner pins _ hnone hcntd =>
    refine .insert rfl rfl (fun s hs => by simp [hs]) (by simp) (fun s hs => ?_) (by simp [indexed]) hcntd rfl
    by_cases hi : (u.slots s).identity = identity
    · simp [indexed, hs, hi, hnone, Ne.symm hs]
    · simp [indexed, hs, hi]
  | @unindex s identity _ _ hlook _ _ hcntd =>
    obtain ⟨hlt, hiden⟩ := hu.index hlook
    refine .unindex s rfl rfl (fun _ => rfl) hlt (by simp [indexed, hiden, hlook])
      (by simp [indexed, hiden]) (fun s' hs' => ?_) hcntd rfl
    by_cases hi : (u.slots s').identity = identity
    · simp [indexed, hi, hlook, Ne.symm hs']
    · simp [indexed, hi]
  | @count s _ hcntd =>
    refine .count s true rfl u.counter.add_one_modEq (fun _ => Nat.mod_lt _ (by norm_num)) ?_
      (fun s' hs' => ?_) (indexed_of_update rfl rfl rfl) hcntd rfl
    · simp [setSlot, countOf]
    · simp [setSlot, hs']
  | @uncount s _ hcntd =>
    refine .count s false rfl u.counter.fetchSub_one_modEq (fun hbd => ?_) ?_ (fun s' hs' => ?_)
      (indexed_of_update rfl rfl rfl) hcntd rfl
    · simp only [Counter.fetchSub]
      split <;> dsimp only <;> omega
    · simp [setSlot, countOf, sub_eq_add_neg]
    · simp [setSlot, hs']
  | lock | unlock | claim | unclaim | stage | abandon | number | publish | withdraw | restore
  | expel | lose =>
    exact hset rfl rfl rfl rfl rfl rfl rfl
  | _ => exact .same rfl rfl (fun _ => rfl) (fun _ => rfl) rfl

open Classical in
/-- Whether some call has yet to count the slot, or the end of it. -/
noncomputable def uncountedBy (gs : ℕ → Ghost A) (p : SlotRef × Bool) : ℤ :=
  if ∃ t, (gs t).uncounted = some p then 1 else 0

theorem uncountedBy_of_forall_ne (h : ∀ t, (gs t).uncounted ≠ some p) : uncountedBy gs p = 0 :=
  if_neg (not_exists.mpr h)

theorem uncountedBy_of_eq (h : (gs t).uncounted = some p) : uncountedBy gs p = 1 :=
  if_pos ⟨t, h⟩

theorem uncountedBy_update (h : x'.uncounted = some p ↔ (gs t).uncounted = some p) :
    uncountedBy (update gs t x') p = uncountedBy gs p := by
  unfold uncountedBy
  congr 1
  refine propext (exists_congr fun t' => ?_)
  by_cases ht : t' = t
  · subst ht
    rw [update_self, h]
  · rw [update_of_ne ht]

/-- The number of slots, as far as it is known from the index and the running calls. -/
structure Tallied (u : View A) (gs : ℕ → Ghost A) (_ : Returned A) : Prop where
  unindexed : ∀ t s, (gs t).uncounted = some (s, false) → u.indexed s = false
  single : ∀ t t' p, (gs t).uncounted = some p → (gs t').uncounted = some p → t = t'
  counted : ∀ s < u.slotCount, (u.slots s).counted + uncountedBy gs (s, true) =
    (if u.indexed s then 1 else 0) + uncountedBy gs (s, false)
  total : (∑ s ∈ Finset.range u.slotCount, (u.slots s).counted) ≡ u.counter.value [ZMOD 2 ^ 64]
  bound : u.counter.value < 2 ^ 64

namespace Tallied

variable {done : Returned A}

theorem restart (h : Tallied u gs done) (hrest : (gs t).uncounted = none)
    (hrest' : x'.uncounted = none) (done' : Returned A) : Tallied u (update gs t x') done' := by
  have hsame : ∀ t', (update gs t x' t').uncounted = (gs t').uncounted := by
    intro t'
    by_cases ht : t' = t
    · subst ht
      rw [update_self, hrest, hrest']
    · rw [update_of_ne ht]
  have hby : ∀ p, uncountedBy (update gs t x') p = uncountedBy gs p :=
    fun p => uncountedBy_update (by rw [hrest, hrest'])
  refine ⟨fun t' s => ?_, fun t₁ t₂ p => ?_, fun s hs => ?_, h.total, h.bound⟩
  · rw [hsame]
    exact h.unindexed t' s
  · rw [hsame, hsame]
    exact h.single t₁ t₂ p
  · rw [hby, hby]
    exact h.counted s hs

variable (hcore : Core u gs) (h : Tallied u gs done)
include hcore h

section

variable (htal : Tallies u (gs t) u' x')
include htal

/-- A slot that has left the index does not come back. -/
theorem unindexed_step :
    ∀ t' s, (update gs t x' t').uncounted = some (s, false) → u'.indexed s = false := by
  have hold : ∀ t' s, (gs t').uncounted = some (s, false) → u'.indexed s = false := by
    intro t' s hs
    have hbef := h.unindexed t' s hs
    cases htal with
    | same _ _ _ hidx | count _ _ _ _ _ _ _ hidx => exact (hidx s).trans hbef
    | insert _ _ _ _ hidx => exact (hidx s ((hcore.sound t').uncounted _ _ hs).ne).trans hbef
    | unindex s' _ _ _ _ hin hgone hidx =>
      by_cases hs' : s = s'
      · exact hs' ▸ hgone
      · exact (hidx s hs').trans hbef
  refine (forall_update_iff gs fun _ x => ∀ s, x.uncounted = some (s, false) →
    u'.indexed s = false).mpr ⟨fun s hs => ?_, fun t' _ => hold t'⟩
  cases htal with
  | same _ _ _ _ hunc => exact hold t s (hunc ▸ hs)
  | insert _ _ _ _ _ _ _ hunc | count _ _ _ _ _ _ _ _ _ hunc => simp [hunc] at hs
  | unindex s' _ _ _ _ _ hgone _ _ hunc =>
    cases hunc.symm.trans hs
    exact hgone

/-- A call that takes on something to count is the only one that does. -/
theorem uncounted_new (hp : x'.uncounted = some p) :
    (gs t).uncounted = some p ∨ ∀ t, (gs t).uncounted ≠ some p := by
  cases htal with
  | same _ _ _ _ hunc => exact .inl (hunc ▸ hp)
  | insert _ _ _ _ _ _ _ hunc =>
    cases hunc.symm.trans hp
    exact .inr fun t' ht' => ((hcore.sound t').uncounted _ _ ht').false
  | unindex s _ _ _ _ hin _ _ _ hunc =>
    cases hunc.symm.trans hp
    exact .inr fun t' ht' => false_ne_true ((h.unindexed t' s ht').symm.trans hin)
  | count _ _ _ _ _ _ _ _ _ hunc => cases hunc.symm.trans hp

theorem counted_step (s : SlotRef)
    (hs : s < u'.slotCount) : (u'.slots s).counted + uncountedBy (update gs t x') (s, true) =
      (if u'.indexed s then 1 else 0) + uncountedBy (update gs t x') (s, false) := by
  cases htal with
  | same hslct _ hcntd hidx hunc =>
    rw [hcntd, hidx, uncountedBy_update (by rw [hunc]), uncountedBy_update (by rw [hunc])]
    exact h.counted s (hslct ▸ hs)
  | insert hslct _ hcntd hzero hidx hnew hnone hunc =>
    have hfalse : uncountedBy (update gs t x') (s, false) = uncountedBy gs (s, false) :=
      uncountedBy_update (by simp [hunc, hnone])
    rw [hfalse]
    rcases Nat.lt_succ_iff_lt_or_eq.mp (hslct ▸ hs) with hs | rfl
    · rw [uncountedBy_update (by simp [hunc, hnone, hs.ne']), hcntd s hs.ne, hidx s hs.ne]
      exact h.counted s hs
    · rw [hzero, hnew, uncountedBy_of_eq (t := t) (by rw [update_self, hunc]),
        uncountedBy_of_forall_ne fun t' ht' => ((hcore.sound t').uncounted _ _ ht').false]
      rfl
  | unindex s' hslct _ hcntd _ hin hgone hidx hnone hunc =>
    have hbef := h.counted s (hslct ▸ hs)
    rw [hcntd, uncountedBy_update (by simp [hunc, hnone])]
    by_cases hs' : s = s'
    · subst hs'
      have hnot : ∀ t, (gs t).uncounted ≠ some (s, false) :=
        fun t' ht' => false_ne_true ((h.unindexed t' s ht').symm.trans hin)
      have hnew : uncountedBy (update gs t x') (s, false) = 1 :=
        uncountedBy_of_eq (t := t) (by rw [update_self, hunc])
      rw [hin, uncountedBy_of_forall_ne hnot] at hbef
      rw [hgone, hnew]
      simpa using hbef
    · rw [hidx s hs', uncountedBy_update (by simp [hunc, hnone, Ne.symm hs'])]
      exact hbef
  | count s' isNew hslct _ _ hcntd hoths hidx hsome hunc =>
    have hbef := h.counted s (hslct ▸ hs)
    have hrest : ∀ b, (s, b) ≠ (s', isNew) → uncountedBy (update gs t x') (s, b) = uncountedBy gs (s, b) := by
      intro b hb
      exact uncountedBy_update (by simp [hunc, hsome, Ne.symm hb])
    rw [hidx]
    by_cases hs' : s = s'
    · subst hs'
      have hone := uncountedBy_of_eq hsome
      have hdone : uncountedBy (update gs t x') (s, isNew) = 0 := by
        refine uncountedBy_of_forall_ne ((forall_update_iff gs fun _ x => x.uncounted ≠
          some (s, isNew)).mpr ⟨by simp [hunc], fun t' hne ht' => hne (h.single t' t _ ht' hsome)⟩)
      have hoth := hrest (!isNew) (by simp)
      rw [hcntd]
      cases isNew <;> simp only [countOf, Bool.not_true, Bool.not_false, Bool.false_eq_true,
        if_true, if_false] at * <;> omega
    · rw [hoths s hs', hrest _ (by simp [hs']), hrest _ (by simp [hs'])]
      exact hbef

theorem total_step :
    (∑ s ∈ range u'.slotCount, (u'.slots s).counted) ≡ u'.counter.value [ZMOD 2 ^ 64] := by
  cases htal with
  | same hslct hctr hcntd | unindex _ hslct hctr hcntd =>
    rw [hslct, hctr, sum_congr rfl fun s _ => hcntd s]
    exact h.total
  | insert hslct hctr hcntd hzero =>
    rw [hslct, hctr, sum_range_succ, hzero, add_zero,
      sum_congr rfl fun s hs => hcntd s (mem_range.mp hs).ne]
    exact h.total
  | count s isNew hslct hctr _ hcntd hoths _ hsome =>
    have hmem := mem_range.mpr ((hcore.sound t).uncounted _ _ hsome)
    have hsum : (∑ s ∈ range u.slotCount, (u'.slots s).counted) =
        (∑ s ∈ range u.slotCount, (u.slots s).counted) + countOf isNew := by
      rw [← add_sum_erase _ _ hmem, ← add_sum_erase _ (fun s => (u.slots s).counted) hmem, hcntd,
        sum_congr rfl fun s' hs' => hoths s' (ne_of_mem_erase hs')]
      exact add_right_comm _ _ _
    rw [hslct, hsum]
    exact (h.total.add_right _).trans hctr.symm

end

theorem step (hmove : Move u (gs t) u' x') : Tallied u' (update gs t x') done := by
  have htal := hmove.tallies hcore.wellformed
  refine ⟨h.unindexed_step hcore htal,
    unique_update (·.uncounted) h.single fun p =>
    h.uncounted_new hcore htal, h.counted_step hcore htal, h.total_step hcore htal, ?_⟩
  cases htal with
  | same _ hctr | insert _ hctr | unindex _ _ hctr => exact hctr ▸ h.bound
  | count _ _ _ _ hbd => exact hbd h.bound

end Tallied

theorem tallied_lasting : Lasting (A := A) cfg (fun _ _ => True) Tallied where
  new {w} hw := by
    have hcnt : w.view.slotCount = 0 := hw.slotCount
    have hctr : w.view.counter = .zero := congrArg (·.slots) hw.index
    refine ⟨nofun, nofun, ?_, ?_, ?_⟩
    · simp [hcnt]
    · simp [hcnt, hctr, Counter.zero]
    · simp [hctr, Counter.zero]
  invoke call _ h hidle := h.restart (by rw [hidle]; rfl) rfl _
  step hcore h hmove _ := h.step hcore hmove
  finish _ h hpost _ := h.restart (CatalogCall.Post.atRest hpost).uncounted rfl _

/-! ### Empty slots -/

namespace View

/-- The slot is in the index and holds nothing. -/
def Vacant (u : View A) (s : SlotRef) : Prop :=
  u.indexed s = true ∧ u.committed s = none ∧ u.active s = none

end View

namespace Move

/-- A slot that holds nothing has held nothing before, or the call owes a candidate for it. -/
theorem vacant_cases (h : Move u x u' x') (hs : u'.Vacant s) : u.Vacant s ∨ s ∈ x'.owes := by
  obtain ⟨hidx, hcomm, hactv⟩ := hs
  have hkept : u'.indexed s = u.indexed s → u'.committed s = u.committed s →
      u'.active s = u.active s → u.Vacant s ∨ s ∈ x'.owes :=
    fun hin hcom hact => .inl ⟨hin ▸ hidx, hcom ▸ hcomm, hact ▸ hactv⟩
  have hset : ∀ {s' y}, u'.slots = update u.slots s' y → u'.lookup = u.lookup →
      y.identity = (u.slots s').identity →
      (s = s' → y.committed = u.committed s' ∧ y.active = u.active s' ∨ s' ∈ x'.owes ∨
        y.committed ≠ none ∨ y.active ≠ none) → u.Vacant s ∨ s ∈ x'.owes := by
    intro s' y hslots hlook hiden hy
    have hin := indexed_of_update hslots hlook hiden s
    by_cases hs : s = s'
    · subst hs
      have hcom : u'.committed s = y.committed := by simp [committed, hslots]
      have hact : u'.active s = y.active := by simp [active, hslots]
      rcases hy rfl with ⟨hcom', hact'⟩ | howes | hne | hne
      · exact hkept hin (hcom.trans hcom') (hact.trans hact')
      · exact .inr howes
      · exact absurd (hcom.symm.trans hcomm) hne
      · exact absurd (hact.symm.trans hactv) hne
    · exact hkept hin (by simp [committed, hslots, hs]) (by simp [active, hslots, hs])
  cases h with
  | @insert identity owner pins _ hnone =>
    by_cases hs : s = u.slotCount
    · subst hs
      simp [active] at hactv
    · refine hkept ?_ (by simp [committed, hs]) (by simp [active, hs])
      by_cases hi : (u.slots s).identity = identity
      · simp [indexed, hs, hi, hnone, Ne.symm hs]
      · simp [indexed, hs, hi]
  | @unindex s' identity _ _ hlook =>
    refine hkept ?_ rfl rfl
    by_cases hi : (u.slots s).identity = identity
    · simp [indexed, hi] at hidx
    · simp [indexed, hi]
  | lock | unlock | number | count | uncount => exact hset rfl rfl rfl fun _ => .inl ⟨rfl, rfl⟩
  | claim | stage => exact hset rfl rfl rfl fun _ => .inr (.inr (.inr (Option.some_ne_none _)))
  | publish | restore => exact hset rfl rfl rfl fun _ => .inr (.inr (.inl (Option.some_ne_none _)))
  | unclaim | abandon | withdraw | expel | lose =>
    exact hset rfl rfl rfl fun _ => .inr (.inl List.mem_cons_self)
  | _ => exact hkept rfl rfl rfl

theorem empties_kept (h : Move u x u' x') (hc : c ∈ u.empties) :
    c ∈ u'.empties ∨ x'.emptied = some c := by
  cases h with
  | enqueueEmpty | pushEmpty => exact .inl (List.mem_append_left _ hc)
  | popEmpty hemps =>
    rw [hemps] at hc
    rcases List.mem_cons.mp hc with rfl | hc
    · exact .inr rfl
    · exact .inl hc
  | _ => exact .inl hc

/-- What a call owes it queues, unless the slot has a committed version. -/
theorem owes_kept (h : Move u x u' x') (hs : s ∈ x.owes) :
    s ∈ x'.owes ∨ (∃ c ∈ u'.empties, c.slot = s) ∨ u.committed s ≠ none ∨
      u'.committed s ≠ none := by
  cases h with
  | unclaim | abandon | withdraw | expel | lose => exact .inl (List.mem_cons_of_mem _ hs)
  | @settle s' hcomm =>
    by_cases heq : s = s'
    · exact .inr (.inr (.inl (heq ▸ hcomm)))
    · exact .inl ((List.mem_erase_of_ne heq).mpr hs)
  | @restore s' v =>
    by_cases heq : s = s'
    · subst heq
      refine .inr (.inr (.inr ?_))
      simp [committed, setStanding, setVersion, setCommitted, setSlot]
    · exact .inl ((List.mem_erase_of_ne heq).mpr hs)
  | enqueueEmpty c =>
    by_cases heq : s = c.slot
    · exact .inr (.inl ⟨c, by simp, heq.symm⟩)
    · exact .inl ((List.mem_erase_of_ne heq).mpr hs)
  | _ => exact .inl hs

/-- A candidate in hand goes back to the queue, unless its slot is in use or not indexed. -/
theorem emptied_kept (hu : u.Wellformed) (hx : x.Sound u) (h : Move u x u' x')
    (hc : x.emptied = some c) :
    x'.emptied = some c ∨ c ∈ u'.empties ∨ ¬u.Vacant c.slot ∨ ¬u'.Vacant c.slot := by
  cases h with
  | popEmpty _ hcln => cases hcln.2.symm.trans hc
  | pushEmpty hc' =>
    cases hc.symm.trans hc'
    exact .inr (.inl (by simp))
  | dropEmpty hc' hstl =>
    cases hc.symm.trans hc'
    refine .inr (.inr (.inl fun hvacant => ?_))
    obtain ⟨hidx, hcomm, hactv⟩ := hvacant
    rcases hstl with hne | hgone | hne | hne
    · rw [indexed, (hx.emptied c hc).2] at hidx
      exact hne (of_decide_eq_true hidx)
    · exact false_ne_true (hgone.symm.trans hidx)
    · exact hne hcomm
    · exact hne hactv
  | @unindex s identity _ _ hlook _ _ _ hempd =>
    refine .inr (.inr (.inr fun hvacant => ?_))
    obtain rfl := hempd c hc
    simp [View.Vacant, indexed, (hu.index hlook).2] at hvacant
  | _ => exact .inl hc

end Move

/-- A candidate for the empty slot is queued, or a call has it in hand or owes it. -/
inductive EmptyListed (u : View A) (gs : ℕ → Ghost A) (s : SlotRef) : Prop
  | queued (h : ∃ c ∈ u.empties, c.slot = s)
  | owed (h : ∃ t, s ∈ (gs t).owes)
  | popped (h : ∃ t, ∃ c, (gs t).emptied = some c ∧ c.slot = s)

namespace EmptyListed

variable {s : SlotRef}

theorem restart (h : EmptyListed u gs s) (hrest : (gs t).AtRest) :
    EmptyListed u (update gs t x') s := by
  cases h with
  | queued h => exact .queued h
  | owed h =>
    refine .owed (exists_update_of_not (s ∈ ·.owes) h ?_)
    simp [hrest.owes]
  | popped h =>
    refine .popped (exists_update_of_not (fun x => ∃ c, x.emptied = some c ∧ c.slot = s) h ?_)
    simp [hrest.emptied]

theorem step (hcore : Core u gs) (hmove : Move u (gs t) u' x') (hs : u.Vacant s) (hs' : u'.Vacant s)
    (h : EmptyListed u gs s) : EmptyListed u' (update gs t x') s := by
  cases h with
  | queued h =>
    obtain ⟨c, hc, hslot⟩ := h
    rcases hmove.empties_kept hc with hc | hc
    · exact .queued ⟨c, hc, hslot⟩
    · exact .popped (exists_update_self (fun x => ∃ c, x.emptied = some c ∧ c.slot = s) ⟨c, hc, hslot⟩)
  | owed h =>
    have hkeep : s ∈ (gs t).owes → s ∈ x'.owes ∨ ∃ c ∈ u'.empties, c.slot = s := by
      intro howes
      rcases hmove.owes_kept howes with howes | hqd | hne | hne
      · exact .inl howes
      · exact .inr hqd
      · exact absurd hs.2.1 hne
      · exact absurd hs'.2.1 hne
    rcases exists_update (s ∈ ·.owes) h hkeep with h | h
    · exact .owed h
    · exact .queued h
  | popped h =>
    have hkeep : (∃ c, (gs t).emptied = some c ∧ c.slot = s) →
        (∃ c, x'.emptied = some c ∧ c.slot = s) ∨ ∃ c ∈ u'.empties, c.slot = s := by
      rintro ⟨c, hc, rfl⟩
      rcases hmove.emptied_kept hcore.wellformed (hcore.sound t) hc with hc | hc | hnot | hnot
      · exact .inl ⟨c, hc, rfl⟩
      · exact .inr ⟨c, hc, rfl⟩
      · exact absurd hs hnot
      · exact absurd hs' hnot
    rcases exists_update (fun x => ∃ c, x.emptied = some c ∧ c.slot = s) h hkeep with h | h
    · exact .popped h
    · exact .queued h

end EmptyListed

/-! ### Runs -/

/-- Claims are made on indexed slots, and empty slots are listed. -/
structure Listed (u : View A) (gs : ℕ → Ghost A) (done : Returned A) : Prop where
  empty : ∀ s, u.Vacant s → EmptyListed u gs s
  claimed : ∀ d ∈ done, ∀ claim, d.result = .claimed (.ok claim) →
    ∃ p ∈ d.trace, View.Claims claim.slot claim.id p.1.view p.2.view

theorem listed_lasting : Lasting (A := A) cfg (fun _ _ => True) Listed where
  new {w} hw := by
    refine ⟨fun s hs => ?_, by simp⟩
    have hidx := hs.1
    simp [indexed, World.view, World.lookupSlot, hw.index] at hidx
  invoke {u gs done t} call _ h hidle :=
    ⟨fun s hs => (h.empty s hs).restart (hidle ▸ .start _ _), h.claimed⟩
  step {u gs done t u' x'} hcore h hmove _ := by
    refine ⟨fun s hs => ?_, h.claimed⟩
    rcases hmove.vacant_cases hs with hold | howes
    · exact (h.empty s hold).step hcore hmove hold hs
    · exact .owed (exists_update_self (s ∈ ·.owes) howes)
  finish {u gs done t call result trace} _ h hpost htrk := by
    refine ⟨fun s hs => (h.empty s hs).restart (CatalogCall.Post.atRest hpost),
      List.forall_mem_cons.mpr ⟨fun claim hclaim => ?_, h.claimed⟩⟩
    obtain rfl : result = .claimed (.ok claim) := hclaim
    have hpost' := hpost.eq_beginWrite
    exact htrk.claimed _ _ (by rw [hpost'])

namespace World

def indexedSlots (w : World A) : Finset SlotRef :=
  (Finset.range w.slotCount).filter fun s => w.indexed s

/-- The slot has a transaction or a committed version. -/
def InUse (w : World A) (s : SlotRef) : Prop := w.active s ≠ none ∨ w.committed s ≠ none

/-- The transaction is begun on the slot, which is the one in the index. -/
structure ClaimsIndexed (claim : WriteClaim) (w w' : World A) : Prop where
  fresh : (claim.slot, claim.id) ∉ w.history.begun
  begun : (claim.slot, claim.id) ∈ w'.history.begun
  indexed : w'.indexed claim.slot = true
  active : ∃ a, w'.active claim.slot = some a ∧ a.id = claim.id ∧ a.phase = .claimed

end World

/-- Where the candidate of an empty slot is: queued, or about to be queued by a running
call that emptied the slot or took the candidate off the queue. -/
inductive EmptyKept (c : RunningCatalog A) (s : SlotRef) : Prop
  | queued (candidate : EmptySlotCandidate) (h : candidate ∈ c.shared.emptySlots)
      (hslot : candidate.slot = s)
  | emptying (t : ℕ) (r : Running (World A) (CatalogCall A) CatalogResult) (hr : c.threads t = some r)
      (h : Since (onViews (View.Clears s)) (onViews (View.QueuesEmpty s)) r.trace)
  | cleaning (t : ℕ) (r : Running (World A) (CatalogCall A) CatalogResult)
      (hr : c.threads t = some r) (candidate : EmptySlotCandidate) (hslot : candidate.slot = s)
      (h : Since (onViews (View.TakesEmpty candidate)) (onViews (View.PutsEmpty candidate)) r.trace)

/-- The index of slots in every interleaving. -/
structure SlotsIndexed (c : RunningCatalog A) : Prop where
  used : ∀ s, c.shared.InUse s → c.shared.lookupSlot (c.shared.slots s).identity = some s
  unique : ∀ s s', c.shared.InUse s → c.shared.InUse s' →
    (c.shared.slots s).identity = (c.shared.slots s').identity → s = s'
  claimed : ∀ d ∈ c.completed, ∀ claim, d.result = .claimed (.ok claim) →
    ∃ p ∈ d.trace, World.ClaimsIndexed claim p.1 p.2
  -- the number of slots is a 64-bit word
  counted : (∀ t, c.threads t = none) →
    c.shared.index.slots.value = c.shared.indexedSlots.card % 2 ^ 64
  empty : ∀ s, c.shared.indexed s = true → c.shared.committed s = none → c.shared.active s = none →
    EmptyKept c s

theorem Tallied.counter_eq (h : Tallied u gs done) (hrest : ∀ t, (gs t).uncounted = none) :
    u.counter.value = ((range u.slotCount).filter fun s => u.indexed s).card % 2 ^ 64 := by
  have hcntd : ∀ s ∈ range u.slotCount, (u.slots s).counted = if u.indexed s then 1 else 0 := by
    intro s hs
    have hs := h.counted s (mem_range.mp hs)
    rwa [uncountedBy_of_forall_ne (by simp [hrest]), uncountedBy_of_forall_ne (by simp [hrest]),
      add_zero, add_zero] at hs
  have htot := h.total
  rw [sum_congr rfl hcntd, sum_boole] at htot
  have hmod := (Int.natCast_modEq_iff (n := 2 ^ 64)).mp (by exact_mod_cast htot)
  rw [hmod, Nat.mod_eq_of_lt h.bound]

/-- The index of slots is sound in every interleaving: slots in use are indexed, claims
are made on indexed slots, the number of slots is right when nothing runs, and empty
slots are cleaned up. -/
theorem slots_indexed {cfg : CatalogConfig} {hooks : WatermarkHooks A}
    {c : RunningCatalog A} (hreach : (catalogSystem cfg hooks).Reachable c) :
    SlotsIndexed c := by
  obtain ⟨_, hghosts, hcore, htallied, hlisted⟩ :=
    (tallied_lasting.and listed_lasting).reachable hreach
  have hused : ∀ s, c.shared.InUse s → c.shared.lookupSlot (c.shared.slots s).identity = some s :=
    fun s hs => of_decide_eq_true (hcore.wellformed.used hs.symm)
  refine {
    used := hused
    unique := fun s s' hs hs' hidentity => ?_
    claimed := fun d hd claim hclaim => ?_
    counted := fun hquiet => htallied.counter_eq fun t => ?_
    empty := fun s hindexed hcommitted hactive => ?_ }
  · have hlookup := hused s hs
    rw [hidentity, hused s' hs'] at hlookup
    exact (Option.some.inj hlookup).symm
  · obtain ⟨p, hp, hfresh, hbegun, hindexed, hactive⟩ := hlisted.claimed d hd claim hclaim
    exact ⟨p, hp, hfresh, hbegun, hindexed, hactive⟩
  · rw [hghosts.idle t (hquiet t)]
    rfl
  cases hlisted.empty s ⟨hindexed, hcommitted, hactive⟩ with
  | queued h =>
    obtain ⟨candidate, hmem, hslot⟩ := h
    exact .queued candidate hmem hslot
  | owed h =>
    obtain ⟨t, howes⟩ := h
    obtain ⟨r, hr, htrack⟩ :=
      hghosts.exists_running (t := t) (by rintro h; simp [h, catalogOutline, Ghost.start] at howes)
    exact .emptying t r hr (htrack.owes s howes).2.2
  | popped h =>
    obtain ⟨t, candidate, hemptied, hslot⟩ := h
    obtain ⟨r, hr, htrack⟩ := hghosts.exists_running (t := t)
      (by rintro h; simp [h, catalogOutline, Ghost.start] at hemptied)
    exact .cleaning t r hr candidate hslot (htrack.emptied candidate hemptied).2

set_option maxRecDepth 20000 in
/-- A version is removed by force, and its slot waits to be cleaned up. -/
theorem slots_indexed_emptied :
    ∃ c, system.Reachable c ∧ c.shared.index.slots.value = 1 ∧ c.shared.indexed 0 = true ∧
      c.shared.committed 0 = none ∧ c.shared.emptySlots.map (·.slot) = [0] ∧ SlotsIndexed c := by
  have hreach := reachable_after (write ++
    .invoke 0 (.remove identity 20 true) :: steps 0 30)
  exact ⟨_,
    hreach, by decide +kernel, by decide +kernel, by decide +kernel, by decide +kernel, slots_indexed hreach⟩

end Cakemaster.Object
