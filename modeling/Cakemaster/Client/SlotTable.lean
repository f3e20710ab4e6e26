import Cakemaster.Client.SlotMoves
import Mathlib.Data.Multiset.Count

/-!
# References to slots

The map of slots and the references of all threads: a slot of the map counts the
references that there are, a slot in use is the one of the map, and a locked slot has one
holder.
-/

namespace Cakemaster.Client

open Machine Segment Multiset ClientManager Function Function ClientManager Ghost AList
open Object (ClientSession)

variable {A : UnitAllocator} {cfg : ClientLifecycleConfig}

namespace ClientManager

variable (m : ClientManager A) (r : SlotRef)

@[simp] theorem cells_modifyCell (f : ClientSlot → ClientSlot) (r' : SlotRef) :
    (m.modifyCell r f).cells r' = if r' = r then f (m.cells r) else m.cells r' :=
  update_apply ..

theorem lookup_insertSlot (c c' : ClientId) :
    (m.insertSlot c).slots.lookup c' = if c' = c then some m.slotCount else m.slots.lookup c' := by
  by_cases h : c' = c
  · rw [if_pos h, h]
    exact lookup_insert _
  · rw [if_neg h]
    exact lookup_insert_ne h

theorem cells_insertSlot (c : ClientId) (r' : SlotRef) :
    (m.insertSlot c).cells r' = if r' = m.slotCount then ⟨.default, false, 2⟩ else m.cells r' :=
  update_apply ..

theorem removeUnused_cases (c : ClientId) : m.removeUnused c r = m ∨ (m.cells r).strongCount = 2 ∧
    m.slots.lookup c = some r ∧
    m.removeUnused c r = { m.release r with slots := m.slots.erase c } := by
  rw [removeUnused]
  split
  next h => exact .inr ⟨h.1, h.2, rfl⟩
  · exact .inl rfl

theorem clearMountState_cases {m m' : ClientManager A} {r : SlotRef}
    (h : m.clearMountState session r = some (true, m')) : (m.cells r).locked = false ∧
      (m' = m ∧ (m.cells r).mountState.session = none ∨ (m.cells r).mountState.session = some session ∧
        m' = m.modifyCell r fun slot => { slot with mountState := .default }) := by
  rw [clearMountState] at h
  split at h
  · cases h
  next hfree =>
  refine ⟨Bool.not_eq_true _ ▸ hfree, ?_⟩
  split at h
  next current hcurr =>
    split at h
    next heq =>
      cases h
      exact .inr ⟨heq ▸ hcurr, rfl⟩
    · cases h
  next hnone =>
  cases h
  exact .inl ⟨rfl, hnone⟩

end ClientManager

/-- The references of a thread: the slots in use are those of the map, and the lock it
holds is taken. -/
structure Refers (m : ClientManager A) (g : Ghost) : Prop where
  old : ∀ r ∈ g.references, r < m.slotCount
  uses : ∀ c r, g.uses c = some r → m.slots.lookup c = some r ∧ r ∈ g.references
  held : ∀ k, g.held = some k → g.uses k.client = some k.slot ∧ (m.cells k.slot).locked = true ∧
    (m.cells k.slot).mountState = k.state

/-- The map and the references of all threads. -/
structure SlotTable (m : ClientManager A) (gs : ℕ → Ghost) : Prop where
  injective : ∀ c c' r, m.slots.lookup c = some r → m.slots.lookup c' = some r → c = c'
  old : ∀ c r, m.slots.lookup c = some r → r < m.slotCount
  -- the threads that refer to a slot of the map, as often as they do
  count : ∀ c r, m.slots.lookup c = some r → ∃ threads : Multiset ℕ,
    (∀ t, threads.count t = (gs t).references.count r) ∧ (m.cells r).strongCount = threads.card + 1
  refers : ∀ t, Refers m (gs t)
  alone : ∀ t t' k k', (gs t).held = some k → (gs t').held = some k' → k.slot = k'.slot → t = t'

namespace SlotTable

variable {m m' : ClientManager A} {gs : ℕ → Ghost} {t : ℕ} {g' : Ghost} {c : ClientId} {r : SlotRef}

theorem init (pool : SegmentPool A) (role : Role) : SlotTable (.new pool) fun _ => .start role where
  injective := nofun
  old := nofun
  count := nofun
  refers _ := ⟨nofun, nofun, nofun⟩
  alone := nofun

section

variable (h : SlotTable m gs)
include h

theorem lookup (hk : (gs t).held = some k) :
    m.slots.lookup k.client = some k.slot ∧ k.slot < m.slotCount := by
  have hslot := ((h.refers t).uses _ _ ((h.refers t).held k hk).1).1
  exact ⟨hslot, h.old _ _ hslot⟩

theorem holder (hk : (gs t).held = some k) (hk' : (gs t').held = some k')
    (hcl : k.client = k'.client) : t = t' := by
  refine h.alone t t' k k' hk hk' (Option.some.inj ?_)
  rw [← (h.lookup hk).1, ← (h.lookup hk').1, hcl]

/-- A step of thread `t`, when the slots that the others use and hold stay as they are. -/
theorem update (hle : m.slotCount ≤ m'.slotCount)
    (hinjective : ∀ c c' r, m'.slots.lookup c = some r → m'.slots.lookup c' = some r → c = c')
    (hold : ∀ c r, m'.slots.lookup c = some r → r < m'.slotCount)
    (hcnt : ∀ c r, m'.slots.lookup c = some r → ∃ threads : Multiset ℕ,
      threads.count t = g'.references.count r ∧
      (∀ t' ≠ t, threads.count t' = (gs t').references.count r) ∧
        (m'.cells r).strongCount = threads.card + 1) (hself : Refers m' g')
    (huses : ∀ t' ≠ t, ∀ c r, (gs t').uses c = some r → m'.slots.lookup c = some r)
    (hheld : ∀ t' ≠ t, ∀ k, (gs t').held = some k → (m'.cells k.slot).locked =
      (m.cells k.slot).locked ∧ (m'.cells k.slot).mountState = (m.cells k.slot).mountState)
    (halone : ∀ t' ≠ t, ∀ k k', (gs t').held = some k → g'.held = some k' → k.slot ≠ k'.slot) :
    SlotTable m' (update gs t g') where
  injective := hinjective
  old := hold
  count c r hr := by
    obtain ⟨threads, hown, hoths, hstrong⟩ := hcnt c r hr
    refine ⟨threads, fun t' => ?_, hstrong⟩
    rcases eq_or_ne t' t with rfl | ht
    · rw [update_self, hown]
    · rw [update_of_ne ht, hoths t' ht]
  refers t' := by
    rcases eq_or_ne t' t with rfl | ht
    · rwa [update_self]
    · rw [update_of_ne ht]
      refine ⟨fun r hr => ((h.refers t').old r hr).trans_le hle, fun c r hr => ?_, fun k hk => ?_⟩
      · exact ⟨huses t' ht c r hr, ((h.refers t').uses c r hr).2⟩
      · rw [(hheld t' ht k hk).1, (hheld t' ht k hk).2]
        exact (h.refers t').held k hk
  alone t₁ t₂ k₁ k₂ h₁ h₂ heq := by
    by_cases ht₁ : t₁ = t <;> by_cases ht₂ : t₂ = t
    · rw [ht₁, ht₂]
    · rw [ht₁, update_self] at h₁
      rw [update_of_ne ht₂] at h₂
      exact absurd heq.symm (halone t₂ ht₂ k₂ k₁ h₂ h₁)
    · rw [update_of_ne ht₁] at h₁
      rw [ht₂, update_self] at h₂
      exact absurd heq (halone t₁ ht₁ k₁ k₂ h₁ h₂)
    · rw [update_of_ne ht₁] at h₁
      rw [update_of_ne ht₂] at h₂
      exact h.alone t₁ t₂ k₁ k₂ h₁ h₂ heq

/-- A step that only moves the references of its thread along. -/
theorem update_cells (hslots : m'.slots = m.slots) (hslct : m'.slotCount = m.slotCount)
    (hstrong : ∀ r, (m'.cells r).strongCount = (m.cells r).strongCount)
    (hrfs : g'.references = (gs t).references) (huses : g'.uses = (gs t).uses)
    (hself : ∀ k', g'.held = some k' → g'.uses k'.client = some k'.slot ∧ (m'.cells k'.slot).locked = true ∧
      (m'.cells k'.slot).mountState = k'.state)
    (hheld : ∀ t' ≠ t, ∀ k, (gs t').held = some k → (m'.cells k.slot).locked =
      (m.cells k.slot).locked ∧ (m'.cells k.slot).mountState = (m.cells k.slot).mountState)
    (halone : ∀ t' ≠ t, ∀ k k', (gs t').held = some k → g'.held = some k' → k.slot ≠ k'.slot) :
    SlotTable m' (Function.update gs t g') := by
  have hmap : ∀ c, m'.slots.lookup c = m.slots.lookup c := fun c => by rw [hslots]
  refine h.update hslct.ge ?_ ?_ ?_ ⟨?_, ?_, hself⟩ ?_ hheld halone
  · simpa only [hmap] using h.injective
  · simpa only [hmap, hslct] using h.old
  · intro c r hr
    obtain ⟨threads, hthrs, hcnt⟩ := h.count c r ((hmap c).symm.trans hr)
    exact ⟨threads, by rw [hthrs, hrfs], fun t' _ => hthrs t', by rw [hstrong, hcnt]⟩
  · rw [hrfs, hslct]
    exact (h.refers t).old
  · rw [hrfs, huses, hslots]
    exact (h.refers t).uses
  · intro t' _ c r hr
    rw [hmap]
    exact ((h.refers t').uses c r hr).1

theorem congr (hslots : m'.slots = m.slots) (hcells : m'.cells = m.cells)
    (hslct : m'.slotCount = m.slotCount) (hrfs : g'.references = (gs t).references)
    (huses : g'.uses = (gs t).uses)
    (hheld : ∀ k', g'.held = some k' → ∃ k, (gs t).held = some k ∧ k'.client = k.client ∧ k'.slot = k.slot ∧
      k'.state = k.state) :
    SlotTable m' (Function.update gs t g') := by
  refine h.update_cells hslots hslct (by simp [hcells]) hrfs huses ?_ (by simp [hcells]) ?_
  · intro k' hk'
    obtain ⟨k, hk, hcl, hslot, hst⟩ := hheld k' hk'
    rw [huses, hcells, hcl, hslot, hst]
    exact (h.refers t).held k hk
  · intro t' ht k k' hk hk' heq
    obtain ⟨k₀, hk₀, -, hslot, -⟩ := hheld k' hk'
    exact ht (h.alone t' t k k₀ hk hk₀ (heq.trans hslot))

theorem slot_ne (hk : (gs t).held = some k) (hfree : (m.cells r).locked = false) : k.slot ≠ r := by
  rintro rfl
  rw [((h.refers t).held k hk).2.1] at hfree
  cases hfree

theorem take (hslot : m.slots.lookup c = some r) :
    SlotTable (m.retain r) (Function.update gs t ((gs t).take c r)) := by
  have hcell : ∀ r', ((m.retain r).cells r').locked = (m.cells r').locked ∧
      ((m.retain r).cells r').mountState = (m.cells r').mountState := by
    intro r'
    rw [retain, cells_modifyCell]
    split <;> simp_all
  refine h.update le_rfl h.injective h.old ?_ ⟨?_, ?_, ?_⟩
    (fun t' _ c r hr => ((h.refers t').uses c r hr).1) (fun t' _ k _ => hcell k.slot) ?_
  · intro c' r' hr'
    obtain ⟨threads, hthrs, hcnt⟩ := h.count c' r' hr'
    rcases eq_or_ne r' r with rfl | hne
    · refine ⟨t ::ₘ threads, by simp [Ghost.take, hthrs], fun t' ht => by simp [ht, hthrs], ?_⟩
      simp [retain, hcnt]
    · refine ⟨threads, by simp [Ghost.take, hthrs, hne], fun t' _ => hthrs t', ?_⟩
      simp [retain, hne, hcnt]
  · intro r' hr'
    rcases mem_cons.mp hr' with rfl | hr'
    · exact h.old c r' hslot
    · exact (h.refers t).old r' hr'
  · intro c' r' hr'
    rcases eq_or_ne c' c with rfl | hne
    · cases ((gs t).uses_take c' r).symm.trans hr'
      exact ⟨hslot, mem_cons_self _ _⟩
    · obtain ⟨hmap, hmem⟩ := (h.refers t).uses c' r' ((update_of_ne hne _ _).symm.trans hr')
      exact ⟨hmap, mem_cons_of_mem hmem⟩
  · intro k hk
    obtain ⟨huses, hlck, hst⟩ := (h.refers t).held k hk
    rw [(hcell _).1, (hcell _).2]
    refine ⟨?_, hlck, hst⟩
    rcases eq_or_ne k.client c with rfl | hne
    · rw [(h.lookup hk).1] at hslot
      cases hslot
      exact (gs t).uses_take ..
    · exact (update_of_ne hne _ _).trans huses
  · exact fun t' ht k k' hk hk' heq => ht (h.alone t' t k k' hk hk' heq)

theorem make (hslot : m.slots.lookup c = none) :
    SlotTable (m.insertSlot c) (Function.update gs t ((gs t).take c m.slotCount)) := by
  have hmap : ∀ c' r', m.slots.lookup c' = some r' →
      (m.insertSlot c).slots.lookup c' = some r' := by
    intro c' r' hr'
    rw [lookup_insertSlot, if_neg, hr']
    rintro rfl
    cases hslot.symm.trans hr'
  have hcell : ∀ r', r' < m.slotCount → (m.insertSlot c).cells r' = m.cells r' := by
    intro r' hr'
    rw [cells_insertSlot, if_neg hr'.ne]
  have hheld : ∀ t' k, (gs t').held = some k → (m.insertSlot c).cells k.slot = m.cells k.slot :=
    fun t' k hk => hcell _ (h.lookup hk).2
  refine h.update (Nat.le_succ _) ?_ ?_ ?_ ⟨?_, ?_, ?_⟩ (fun t' _ c r hr => hmap c r
    ((h.refers t').uses c r hr).1) (fun t' _ k hk => by rw [hheld t' k hk]; exact ⟨rfl, rfl⟩) ?_
  · intro c₁ c₂ r' h₁ h₂
    rw [lookup_insertSlot] at h₁ h₂
    split at h₁ <;> split at h₂
    next e₁ e₂ => rw [e₁, e₂]
    · cases h₁
      exact absurd (h.old _ _ h₂) (lt_irrefl _)
    · cases h₂
      exact absurd (h.old _ _ h₁) (lt_irrefl _)
    · exact h.injective c₁ c₂ r' h₁ h₂
  · intro c' r' hr'
    rw [lookup_insertSlot] at hr'
    split at hr'
    · cases hr'
      exact Nat.lt_succ_self _
    · exact (h.old c' r' hr').trans (Nat.lt_succ_self _)
  · intro c' r' hr'
    rw [lookup_insertSlot] at hr'
    split at hr'
    · -- no one refers to the new slot yet
      cases hr'
      have hnone : ∀ t', (gs t').references.count m.slotCount = 0 := fun t' =>
        count_eq_zero.mpr fun hmem => lt_irrefl _ ((h.refers t').old _ hmem)
      refine ⟨{t}, by simp [Ghost.take, hnone], fun t' ht => by simp [ht, hnone], ?_⟩
      rw [cells_insertSlot, if_pos rfl]
      rfl
    · obtain ⟨threads, hthrs, hcnt⟩ := h.count c' r' hr'
      have hlt := h.old c' r' hr'
      refine ⟨threads, by simp [Ghost.take, hthrs, hlt.ne], fun t' _ => hthrs t', by rw [hcell r' hlt, hcnt]⟩
  · intro r' hr'
    rcases mem_cons.mp hr' with rfl | hr'
    · exact Nat.lt_succ_self _
    · exact ((h.refers t).old r' hr').trans (Nat.lt_succ_self _)
  · intro c' r' hr'
    rcases eq_or_ne c' c with rfl | hne
    · cases ((gs t).uses_take c' m.slotCount).symm.trans hr'
      exact ⟨by simp [lookup_insertSlot], mem_cons_self _ _⟩
    · obtain ⟨hmap', hmem⟩ := (h.refers t).uses c' r' ((update_of_ne hne _ _).symm.trans hr')
      exact ⟨hmap c' r' hmap', mem_cons_of_mem hmem⟩
  · intro k hk
    obtain ⟨huses, hlck, hst⟩ := (h.refers t).held k hk
    rw [hheld t k hk]
    refine ⟨(update_of_ne ?_ _ _).trans huses, hlck, hst⟩
    rintro rfl
    cases hslot.symm.trans (h.lookup hk).1
  · exact fun t' ht k k' hk hk' heq => ht (h.alone t' t k k' hk hk' heq)

theorem lock (huses : (gs t).uses c = some r) (hfree : (m.cells r).locked = false) :
    SlotTable (m.modifyCell r fun slot => { slot with locked := true })
      (Function.update gs t { gs t with held := some (.enter c r (m.cells r).mountState) }) := by
  refine h.update_cells rfl rfl ?_ rfl rfl ?_ ?_ ?_
  · intro r'
    rw [cells_modifyCell]
    split <;> simp_all
  · rintro k' ⟨⟩
    simpa [Held.enter] using huses
  · intro t' _ k hk
    simp [h.slot_ne hk hfree]
  · rintro t' _ k k' hk ⟨⟩
    exact h.slot_ne hk hfree

theorem unlock (hheld : (gs t).held = some k) (state : ClientMountState) :
    SlotTable (m.unlockMountState k.slot state) (Function.update gs t { gs t with held := none }) := by
  refine h.update_cells rfl rfl ?_ rfl rfl nofun ?_ nofun
  · intro r'
    rw [unlockMountState, cells_modifyCell]
    split <;> simp_all
  · intro t' ht k' hk'
    have hne : k'.slot ≠ k.slot := fun heq => ht (h.alone t' t k' k hk' hheld heq)
    simp [unlockMountState, hne]

theorem clear (hclr : m.clearMountState session r = some (true, m'))
    (hrfs : g'.references = (gs t).references) (huses : g'.uses = (gs t).uses)
    (hheld : g'.held = (gs t).held) : SlotTable m' (Function.update gs t g') := by
  obtain ⟨hfree, ⟨rfl, -⟩ | ⟨-, rfl⟩⟩ := clearMountState_cases hclr
  · exact h.congr rfl rfl rfl hrfs huses fun k hk => ⟨k, hheld ▸ hk, rfl, rfl, rfl⟩
  have hcell : ∀ t' k, (gs t').held = some k →
      (m.modifyCell r fun slot => { slot with mountState := .default }).cells k.slot = m.cells k.slot := by
    intro t' k hk
    rw [cells_modifyCell, if_neg (h.slot_ne hk hfree)]
  refine h.update_cells rfl rfl ?_ hrfs huses ?_ ?_ ?_
  · intro r'
    rw [cells_modifyCell]
    split <;> simp_all
  · intro k hk
    rw [hheld] at hk
    rw [huses, hcell t k hk]
    exact (h.refers t).held k hk
  · intro t' _ k hk
    rw [hcell t' k hk]
    exact ⟨rfl, rfl⟩
  · exact fun t' ht k k' hk hk' heq => ht (h.alone t' t k k' hk (hheld ▸ hk') heq)

end

theorem cells_release (m : ClientManager A) (r r' : SlotRef) : ((m.release r).cells r').locked =
    (m.cells r').locked ∧ ((m.release r).cells r').mountState = (m.cells r').mountState := by
  rw [release, cells_modifyCell]
  split <;> simp_all

variable (h : SlotTable m gs)
include h

theorem release (hmem : r ∈ (gs t).references) (hheld : (gs t).held = none) :
    SlotTable (m.release r) (Function.update gs t ((gs t).forget r)) := by
  have hforget : ∀ {c' r'}, ((gs t).forget r).uses c' = some r' → (gs t).uses c' = some r' ∧
      r' ≠ r := by
    intro c' r' hr'
    simp only [Ghost.forget] at hr'
    split at hr'
    · cases hr'
    next hne =>
    refine ⟨hr', ?_⟩
    rintro rfl
    exact hne hr'
  have hnone : ((gs t).forget r).held = none := hheld
  refine h.update le_rfl h.injective h.old ?_ ⟨?_, ?_, by simp [hnone]⟩ (fun t' _ c r hr =>
    ((h.refers t').uses c r hr).1) (fun t' _ k _ => cells_release m r k.slot) (by simp [hnone])
  · intro c' r' hr'
    obtain ⟨threads, hthrs, hcnt⟩ := h.count c' r' hr'
    rcases eq_or_ne r' r with rfl | hne
    · have hin : t ∈ threads := by
        rw [← one_le_count_iff_mem, hthrs]
        exact one_le_count_iff_mem.mpr hmem
      refine ⟨threads.erase t, by simp [Ghost.forget, hthrs], fun t' ht => ?_, ?_⟩
      · rw [count_erase_of_ne ht, hthrs]
      · rw [release, cells_modifyCell, if_pos rfl, hcnt,
          card_erase_add_one hin, Nat.add_sub_cancel]
    · refine ⟨threads, by simp [forget, hthrs, hne], fun t' _ => hthrs t', ?_⟩
      simp [ClientManager.release, hne, hcnt]
  · exact fun r' hr' => (h.refers t).old r' (mem_of_mem_erase hr')
  · intro c' r' hr'
    obtain ⟨huses, hne⟩ := hforget hr'
    obtain ⟨hmap, hmem'⟩ := (h.refers t).uses c' r' huses
    exact ⟨hmap, (mem_erase_of_ne hne).mpr hmem'⟩

theorem user_eq (huses : (gs t).uses c = some r) (huses' : (gs t').uses c = some r)
    (htwo : (m.cells r).strongCount = 2) : t' = t := by
  obtain ⟨hslot, hmem⟩ := (h.refers t).uses c r huses
  obtain ⟨threads, hthrs, _⟩ := h.count c r hslot
  have hin : ∀ {u}, r ∈ (gs u).references → u ∈ threads := by
    intro u hu
    rw [← one_le_count_iff_mem, hthrs]
    exact one_le_count_iff_mem.mpr hu
  have hone : threads.card = 1 := by omega
  obtain ⟨u, rfl⟩ := card_eq_one.mp hone
  rw [mem_singleton.mp (hin hmem), mem_singleton.mp (hin ((h.refers t').uses c r huses').2)]

theorem prune (huses : (gs t).uses c = some r) (hheld : (gs t).held = none) :
    SlotTable (m.removeUnused c r)
    (Function.update gs t { gs t with uses := Function.update (gs t).uses c none }) := by
  have hown : ∀ {c' r'}, Function.update (gs t).uses c none c' = some r' →
      (gs t).uses c' = some r' ∧ c' ≠ c := by
    intro c' r' hr'
    rcases eq_or_ne c' c with rfl | hne
    · rw [update_self] at hr'
      cases hr'
    · exact ⟨(update_of_ne hne _ _).symm.trans hr', hne⟩
  rcases m.removeUnused_cases r c with hsame | ⟨htwo, hslot, hrem⟩
  · rw [hsame]
    refine h.update le_rfl h.injective h.old ?_ ⟨(h.refers t).old, ?_, by simp [hheld]⟩
      (fun t' _ c r hr => ((h.refers t').uses c r hr).1) (fun _ _ _ _ => ⟨rfl, rfl⟩) (by simp [hheld])
    · intro c' r' hr'
      obtain ⟨threads, hthrs, hcnt⟩ := h.count c' r' hr'
      exact ⟨threads, hthrs t, fun t' _ => hthrs t', hcnt⟩
    · exact fun c' r' hr' => (h.refers t).uses c' r' (hown hr').1
  have hmap : ∀ {c' r'}, (m.slots.erase c).lookup c' = some r' → m.slots.lookup c' = some r' ∧
      c' ≠ c := by
    intro c' r' hr'
    rcases eq_or_ne c' c with rfl | hne
    · rw [lookup_erase] at hr'
      cases hr'
    · exact ⟨(lookup_erase_ne hne).symm.trans hr', hne⟩
  rw [hrem]
  refine h.update le_rfl ?_ ?_ ?_ ⟨(h.refers t).old, ?_, by simp [hheld]⟩ ?_
    (fun t' _ k _ => cells_release m r k.slot) (by simp [hheld])
  · exact fun c₁ c₂ r' h₁ h₂ => h.injective c₁ c₂ r' (hmap h₁).1 (hmap h₂).1
  · exact fun c' r' hr' => h.old c' r' (hmap hr').1
  · intro c' r' hr'
    obtain ⟨hr', hne⟩ := hmap hr'
    have hne' : r' ≠ r := fun heq => hne (h.injective c' c r (heq ▸ hr') hslot)
    obtain ⟨threads, hthrs, hcnt⟩ := h.count c' r' hr'
    exact ⟨threads, hthrs t, fun t' _ => hthrs t', by simp [ClientManager.release, hne', hcnt]⟩
  · intro c' r' hr'
    obtain ⟨hr', hne⟩ := hown hr'
    exact ⟨(lookup_erase_ne hne).trans ((h.refers t).uses c' r' hr').1, ((h.refers t).uses c' r' hr').2⟩
  · -- no other thread uses the slot
    intro t' ht c' r' hr'
    obtain ⟨hmap', -⟩ := (h.refers t').uses c' r' hr'
    rcases eq_or_ne c' c with rfl | hne
    · cases hslot.symm.trans hmap'
      exact absurd (h.user_eq huses hr' htwo) ht
    · exact (lookup_erase_ne hne).trans hmap'

end SlotTable

theorem SlotTable.step {m m' : ClientManager A} (h : SlotTable m gs)
    (hmove : Move cfg m (gs t) m' g') : SlotTable m' (Function.update gs t g') := by
  have hsame : ∀ k, (gs t).held = some k → ∃ k₀, (gs t).held = some k₀ ∧ k.client = k₀.client ∧
      k.slot = k₀.slot ∧ k.state = k₀.state := fun k hk => ⟨k, hk, rfl, rfl, rfl⟩
  -- what is known under a lock changes, but not the lock
  have hkn : ∀ {k k' : Held}, (gs t).held = some k → k'.client = k.client → k'.slot = k.slot →
      k'.state = k.state → ∀ k'', some k' = some k'' → ∃ k₀, (gs t).held = some k₀ ∧
      k''.client = k₀.client ∧ k''.slot = k₀.slot ∧
        k''.state = k₀.state := by
    rintro k k' hk hcl hslot hst k'' ⟨⟩
    exact ⟨k, hk, hcl, hslot, hst⟩
  cases hmove with
  | look | queue | registry | dropClaim | finish | pass | invalidate =>
    exact h.congr rfl rfl rfl rfl rfl hsame
  | establish hheld | withdraw hheld | lapse hheld | absent hheld | attach hheld | see hheld
  | reactivate _ hheld | detach _ hheld => exact h.congr rfl rfl rfl rfl rfl (hkn hheld rfl rfl rfl)
  | take hslot => exact h.take hslot
  | make hslot => exact h.make hslot
  | lock huses _ hfree => exact h.lock huses hfree
  | unlock state hheld => exact h.unlock hheld state
  | prune huses hheld => exact h.prune huses hheld
  | release hmem hheld => exact h.release hmem hheld
  | clear _ _ hclr => exact h.clear hclr rfl rfl rfl

end Cakemaster.Client
