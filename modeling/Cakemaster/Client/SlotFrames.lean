import Cakemaster.Client.ManagerRuns
import Cakemaster.Machine.Solo

/-!
# Calls that run alone: the slots

What a client's slot says is its mount state; a client without a slot is as good as one
whose slot is empty. A call that runs alone takes the slot, works under its lock and leaves
another mount state behind, whatever becomes of the slot itself.
-/

namespace Cakemaster.Client

open Machine Machine.Prog Segment Function Ensures ClientManager
open Object (ClientSession)

variable {A : UnitAllocator} {cfg : ClientLifecycleConfig} {m m' : ClientManager A} {α : Type}
variable {gs : ℕ → Ghost} {f : ClientSlot → ClientSlot} {p : ManagerM A α} {a : α}
    {k : Unit → ManagerM A α}

/-! ### Between two calls -/

def Settled (cfg : ClientLifecycleConfig) (m : ClientManager A) : Prop :=
  Coherent cfg m fun _ => .start .reading

variable {post : α → Ghost → Prop}

theorem Coherent.runs
    (h : Coherent cfg m gs) (hwalks : Walks cfg p (gs t) post) (hrun : Runs p m a m') :
    ∃ g', post a g' ∧ Coherent cfg m' (update gs t g') := by
  have hstep : ∀ (m : ClientManager A) x m' x', (∃ g, x = some g ∧ Coherent cfg m (update gs t g)) →
      Advance cfg m x m' x' → ∃ g', x' = some g' ∧ Coherent cfg m' (update gs t g') := by
    rintro m x m' x' ⟨g, rfl, hcoh⟩ hadv
    have hloc := hcoh.relies t
    rw [update_self] at hloc
    cases hadv with
    | lose hlost => exact absurd hloc hlost
    | @move _ _ g' hmove =>
      have hnext := hcoh.step (t := t) (by rwa [update_self])
      rw [update_idem] at hnext
      exact ⟨g', rfl, hnext⟩
  obtain ⟨x', hpost, g', rfl, hcoh⟩ :=
    Conforms.runs hrun hwalks hstep ⟨gs t, rfl, by rwa [update_eq_self]⟩
  exact ⟨g', hpost g' rfl, hcoh⟩

theorem Coherent.runs_done
    (h : Coherent cfg m gs) (ht : (gs t).Done) (hwalks : Walks cfg p (.start role) post)
    (hdone : ∀ a g, post a g → g.Done) (hrun : Runs p m a m') :
    Coherent cfg m' (update gs t (.start .reading)) := by
  obtain ⟨_, hpost, hcoh⟩ := (h.restart ht role).runs (t := t) (by rwa [update_self]) hrun
  rw [update_idem] at hcoh
  have hend := hcoh.restart (t := t) (by simpa using hdone _ _ hpost) .reading
  rwa [update_idem] at hend

theorem Settled.runs
    (h : Settled cfg m) (hwalks : Walks cfg p (.start role) post) (hdone : ∀ a g, post a g → g.Done)
    (hrun : Runs p m a m') : Settled cfg m' := by
  have hend := Coherent.runs_done h (t := 0) ⟨rfl, rfl, rfl, rfl⟩ hwalks hdone hrun
  rwa [update_eq_self] at hend

theorem Settled.call (h : Settled cfg m) {call : ManagerCall}
    (hrun : Runs (call.code cfg) m result m') : Settled cfg m' :=
  h.runs (walks_code call) (fun _ _ hpost => hpost.1) hrun

/-! ### Mount states -/

namespace ClientManager

/-- What the manager has recorded of a client. -/
def mountState (m : ClientManager A) (c : ClientId) : ClientMountState :=
  ((m.slots.lookup c).map fun r => (m.cells r).mountState).getD .default

variable {c : ClientId} {r : SlotRef}

theorem mountState_some (h : m.slots.lookup c = some r) :
    m.mountState c = (m.cells r).mountState := by
  simp [mountState, h]

theorem mountState_none (h : m.slots.lookup c = none) : m.mountState c = .default := by
  simp [mountState, h]

theorem mountState_congr (hslots : m'.slots = m.slots)
    (hcells : ∀ c r, m.slots.lookup c = some r → (m'.cells r).mountState = (m.cells r).mountState) :
    m'.mountState = m.mountState := by
  funext c
  rw [mountState, mountState, hslots]
  cases hslot : m.slots.lookup c with
  | none => rfl
  | some r => simp [hcells c r hslot]

theorem mountState_modifyCell (hf : ∀ slot, (f slot).mountState = slot.mountState) :
    (m.modifyCell r f).mountState = m.mountState := by
  refine mountState_congr rfl fun c r' _ => ?_
  rw [cells_modifyCell]
  split
  next h => rw [hf, h]
  · rfl

end ClientManager

/-- The slots of the map: every client has its own, and a slot without a session is empty. -/
structure SlotMap (m : ClientManager A) : Prop where
  injective : ∀ c c' r, m.slots.lookup c = some r → m.slots.lookup c' = some r → c = c'
  old : ∀ c r, m.slots.lookup c = some r → r < m.slotCount
  empty : ∀ r, (m.cells r).mountState.session = none → (m.cells r).mountState.segments = ∅

theorem Coherent.slotMap (h : Coherent cfg m gs) :
    SlotMap m := ⟨h.table.injective, h.table.old, h.empty⟩

namespace SlotMap

variable {c : ClientId} {r : SlotRef}

variable (h : SlotMap m)
include h

theorem mountState_empty (hnone : (m.mountState c).session = none) : m.mountState c = .default := by
  cases hslot : m.slots.lookup c with
  | none => exact mountState_none hslot
  | some r =>
    rw [mountState_some hslot] at hnone ⊢
    have hemp := h.empty r hnone
    generalize (m.cells r).mountState = state at hnone hemp ⊢
    obtain ⟨session, _⟩ := state
    cases hnone
    cases hemp
    rfl

theorem modifyCell (hf : (f (m.cells r)).mountState.session = none → (f (m.cells r)).mountState.segments = ∅) :
    SlotMap (m.modifyCell r f) where
  injective := h.injective
  old := h.old
  empty r' hnone := by
    rw [cells_modifyCell] at hnone ⊢
    split
    next heq =>
      rw [if_pos heq] at hnone
      exact hf hnone
    next hne =>
    rw [if_neg hne] at hnone
    exact h.empty r' hnone

theorem insertSlot : SlotMap (m.insertSlot c) where
  injective c₁ c₂ r h₁ h₂ := by
    rw [lookup_insertSlot] at h₁ h₂
    split at h₁
    next hc₁ =>
      cases h₁
      split at h₂
      next hc₂ => exact hc₁.trans hc₂.symm
      · exact absurd (h.old _ _ h₂) (lt_irrefl _)
    · split at h₂
      · cases h₂
        exact absurd (h.old _ _ h₁) (lt_irrefl _)
      · exact h.injective _ _ _ h₁ h₂
  old c' r hr := by
    rw [lookup_insertSlot] at hr
    split at hr
    · cases hr
      exact Nat.lt_succ_self _
    · exact Nat.lt_succ_of_lt (h.old _ _ hr)
  empty r hnone := by
    rw [cells_insertSlot] at hnone ⊢
    split
    · rfl
    next hne =>
    rw [if_neg hne] at hnone
    exact h.empty r hnone

theorem mountState_insertSlot (hslot : m.slots.lookup c = none) :
    (m.insertSlot c).mountState = m.mountState := by
  funext c'
  by_cases hc : c' = c
  · subst hc
    rw [mountState_none hslot, mountState_some (r := m.slotCount)]
    · rw [cells_insertSlot, if_pos rfl]
    · rw [lookup_insertSlot, if_pos rfl]
  · rw [mountState, lookup_insertSlot, if_neg hc]
    cases hslot' : m.slots.lookup c' with
    | none => exact (mountState_none hslot').symm
    | some r =>
      have hne : r ≠ m.slotCount := (h.old _ _ hslot').ne
      rw [mountState_some hslot']
      simp [cells_insertSlot, hne]

theorem mountState_modifyCell (hslot : m.slots.lookup c = some r) (f : ClientSlot → ClientSlot) :
    (m.modifyCell r f).mountState = update m.mountState c (f (m.cells r)).mountState := by
  funext c'
  cases hslot' : m.slots.lookup c' with
  | none =>
    have hne : c' ≠ c := by
      rintro rfl
      cases hslot.symm.trans hslot'
    rw [update_of_ne hne, mountState_none hslot']
    exact mountState_none hslot'
  | some r' =>
    rw [mountState_some (m := m.modifyCell r f) hslot', cells_modifyCell]
    by_cases hc : c' = c
    · subst hc
      cases hslot.symm.trans hslot'
      rw [if_pos rfl, update_self]
    · have hne : r' ≠ r := by
        rintro rfl
        exact hc (h.injective _ _ _ hslot' hslot)
      rw [if_neg hne, update_of_ne hc, mountState_some hslot']

end SlotMap

namespace ClientManager

variable {c : ClientId} {r : SlotRef}

theorem mountState_release :
    (m.release r).mountState = m.mountState := mountState_modifyCell fun _ => rfl

theorem mountState_removeUnused (hemp : m.mountState c = .default) :
    (m.removeUnused c r).mountState = m.mountState := by
  rcases removeUnused_cases (m := m) (r := r) c with heq | ⟨-, -, heq⟩
  · rw [heq]
  rw [heq]
  funext c'
  by_cases hc : c' = c
  · subst hc
    rw [hemp]
    exact mountState_none (AList.lookup_erase _ _)
  · have hlook : (m.slots.erase c).lookup c' = m.slots.lookup c' := AList.lookup_erase_ne hc
    have hrls := congrFun (mountState_release (m := m) (r := r)) c'
    rw [← hrls, mountState]
    show (((m.slots.erase c).lookup c').map fun r' => ((m.release r).cells r').mountState).getD .default = _
    rw [hlook]
    rfl

/-- The parts of the manager beside the slots are the same. -/
structure SameBooks (m m' : ClientManager A) : Prop where
  lifecycle : m'.lifecycle = m.lifecycle
  pool : m'.pool = m.pool
  gracefulUnmounts : m'.gracefulUnmounts = m.gracefulUnmounts
  established : m'.established = m.established

theorem SameBooks.removeUnused : SameBooks m (m.removeUnused c r) := by
  rw [ClientManager.removeUnused]
  split <;> exact ⟨rfl, rfl, rfl, rfl⟩

theorem SameBooks.trans (h : SameBooks m m') (h' : SameBooks m' m'') : SameBooks m m'' where
  lifecycle := h'.lifecycle.trans h.lifecycle
  pool := h'.pool.trans h.pool
  gracefulUnmounts := h'.gracefulUnmounts.trans h.gracefulUnmounts
  established := h'.established.trans h.established

structure SameSlots (m m' : ClientManager A) : Prop where
  slots : m'.slots = m.slots
  cells : m'.cells = m.cells
  slotCount : m'.slotCount = m.slotCount

/-- Slots come and go and are locked, but what they say is the same, and so is everything else. -/
structure Alike (m m' : ClientManager A) : Prop extends SameBooks m m' where
  map : SlotMap m'
  mountState : m'.mountState = m.mountState

theorem SameSlots.map (h : SameSlots m m') (hmap : SlotMap m) : SlotMap m' := by
  obtain ⟨_, _, _⟩ := hmap
  constructor
  · rwa [h.slots]
  · rwa [h.slots, h.slotCount]
  · rwa [h.cells]

theorem SameSlots.mountState (h : SameSlots m m') : m'.mountState = m.mountState :=
  mountState_congr h.slots fun c r _ => by rw [h.cells]

theorem Alike.trans (h : Alike m m') (h' : Alike m' m'') : Alike m m'' where
  toSameBooks := h.toSameBooks.trans h'.toSameBooks
  map := h'.map
  mountState := h'.mountState.trans h.mountState

variable (h : SlotMap m)
include h

theorem Alike.modifyCell (hf : ∀ slot, (f slot).mountState = slot.mountState) :
    Alike m (m.modifyCell r f) where
  toSameBooks := ⟨rfl, rfl, rfl, rfl⟩
  map := h.modifyCell (by
    rw [hf]
    exact h.empty r)
  mountState := mountState_modifyCell hf

theorem Alike.retain : Alike m (m.retain r) := .modifyCell h fun _ => rfl

theorem Alike.release : Alike m (m.release r) := .modifyCell h fun _ => rfl

theorem Alike.removeUnused (hsess : (m.cells r).mountState.session = none) :
    Alike m (m.removeUnused c r) := by
  rcases removeUnused_cases m r c with heq | ⟨-, hslot, heq⟩
  · rw [heq]
    exact ⟨⟨rfl, rfl, rfl, rfl⟩, h, rfl⟩
  have hemp : m.mountState c = .default := h.mountState_empty (by rw [mountState_some hslot, hsess])
  -- what is on the map now was there before
  have hlook : ∀ c' r', (m.removeUnused c r).slots.lookup c' = some r' →
      m.slots.lookup c' = some r' := by
    intro c' r' hr'
    rw [heq] at hr'
    by_cases hc : c' = c
    · subst hc
      cases (AList.lookup_erase c' m.slots).symm.trans hr'
    · exact (AList.lookup_erase_ne hc).symm.trans hr'
  refine ⟨.removeUnused, ⟨?_, ?_, ?_⟩, mountState_removeUnused hemp⟩
  · exact fun c₁ c₂ r' h₁ h₂ => h.injective c₁ c₂ r' (hlook _ _ h₁) (hlook _ _ h₂)
  · rw [heq]
    exact fun c' r' hr' => h.old c' r' (hlook _ _ (by rwa [heq]))
  · rw [heq]
    exact (Alike.release h).map.empty

end ClientManager

open ClientManager

/-! ### Frames -/

section Frames

variable {c : ClientId} {r : SlotRef} {post : α → ClientManager A → Prop}

variable (h : SlotMap m)
include h

theorem ensures_takeSlot {k : SlotRef → ManagerM A α}
    (hk : ∀ r m₁, Alike m m₁ → m₁.slots.lookup c = some r → Ensures (k r) m₁ post) :
    Ensures ((takeSlot c).bind k) m post := by
  rw [takeSlot, update_iff, slot]
  cases hslot : m.slots.lookup c with
  | none =>
    refine hk _ _ ⟨⟨rfl, rfl, rfl, rfl⟩, h.insertSlot, h.mountState_insertSlot hslot⟩ ?_
    rw [lookup_insertSlot, if_pos rfl]
  | some r => exact hk _ _ (.retain h) hslot

theorem ensures_takeExistingSlot {k : Option SlotRef → ManagerM A α}
    (hnone : m.slots.lookup c = none → Ensures (k none) m post)
    (hk : ∀ r m₁, Alike m m₁ → m₁.slots = m.slots → m₁.slots.lookup c = some r → Ensures (k (some r)) m₁ post) :
    Ensures ((takeExistingSlot c).bind k) m post := by
  rw [takeExistingSlot, update_iff, existingSlot]
  cases hslot : m.slots.lookup c with
  | none => exact hnone hslot
  | some r => exact hk _ _ (.retain h) rfl hslot

theorem ensures_lockSlot (hslot : m.slots.lookup c = some r) {k : ClientMountState → ManagerM A α}
    (hk : ∀ m₁, Alike m m₁ → m₁.slots.lookup c = some r → Ensures (k (m.mountState c)) m₁ post) :
    Ensures ((lockSlot r).bind k) m post := by
  rw [lockSlot, await_iff]
  intro state m₁ hlock
  rw [lockMountState] at hlock
  split at hlock
  · cases hlock
  · cases hlock
    rw [← mountState_some hslot]
    exact hk _ (.modifyCell h fun _ => rfl) hslot

theorem ensures_dropSlot (hk : ∀ m₁, Alike m m₁ → m₁.slots = m.slots → Ensures (k ()) m₁ post) :
    Ensures ((dropSlot r).bind k) m post := by
  rw [dropSlot, modify_iff]
  exact hk _ (.release h) rfl

theorem ensures_unlockSlot (hslot : m.slots.lookup c = some r)
    (hst : state.session = none → state.segments = ∅)
    (hk : ∀ m₁, SameBooks m m₁ → SlotMap m₁ → m₁.mountState = update m.mountState c state →
      Ensures (k ()) m₁ post) : Ensures ((unlockSlot r state).bind k) m post := by
  rw [unlockSlot, modify_iff]
  exact hk _ ⟨rfl, rfl, rfl, rfl⟩ (h.modifyCell hst) (h.mountState_modifyCell hslot _)

theorem ensures_pruneUnusedSlot (hk : ∀ m₁, Alike m m₁ → Ensures (k ()) m₁ post) :
    Ensures ((pruneUnusedSlot c r).bind k) m post := by
  rw [pruneUnusedSlot]
  refine bind_iff.mpr (await_iff.mpr fun bound m₁ hbd => ?_)
  rw [isBound] at hbd
  split at hbd
  · cases hbd
  · cases hbd
    cases hsess : (m.cells r).mountState.session with
    | some session => exact .ret (hk _ ⟨⟨rfl, rfl, rfl, rfl⟩, h, rfl⟩)
    | none =>
      refine bind_ret_iff.mp (modify_iff.mpr (.ret ?_))
      exact hk _ (.removeUnused h hsess)

/-- The frame of an operation that mounts segments: the operation works under the lock of the
slot, and its result comes with another mount state. -/
theorem ensures_mounting {post : Except ClientManagerError ActivateOutcome → ClientManager A → Prop}
    (hop : ∀ m₁, Alike m m₁ → Ensures (operation (m.mountState c)) m₁ fun x m₂ => SameSlots m₁ m₂ ∧
      (x.2.session = none → x.2.segments = ∅) ∧
        ∀ m', SameBooks m₂ m' → m'.mountState = update m.mountState c x.2 → post x.1 m') :
    Ensures (mounting c operation) m post := by
  rw [mounting]
  refine ensures_takeSlot h fun r m₁ hlike₁ hslot₁ => ?_
  refine ensures_lockSlot hlike₁.map hslot₁ fun m₂ hlike₂ hslot₂ => ?_
  rw [hlike₁.mountState]
  refine (hop m₂ (hlike₁.trans hlike₂)).seq ?_
  rintro ⟨result, _⟩ m₃ ⟨hsame, hst, hpost⟩
  have hslot₃ : m₃.slots.lookup c = some r := by rw [hsame.slots, hslot₂]
  refine ensures_unlockSlot (hsame.map hlike₂.map) hslot₃ hst fun m₄ hbk₄ hmap₄ hview₄ => ?_
  rw [hsame.mountState, hlike₂.mountState, hlike₁.mountState] at hview₄
  cases result with
  | ok outcome =>
    refine ensures_dropSlot hmap₄ fun m₅ hlike₅ _ => ?_
    exact .ret (hpost _ (hbk₄.trans hlike₅.toSameBooks) (hlike₅.mountState.trans hview₄))
  | error err =>
    refine ensures_pruneUnusedSlot hmap₄ fun m₅ hlike₅ =>
      ensures_dropSlot hlike₅.map fun m₆ hlike₆ _ => ?_
    have hlike := hlike₅.trans hlike₆
    exact .ret (hpost _ (hbk₄.trans hlike.toSameBooks) (hlike.mountState.trans hview₄))

theorem ensures_atSlot {k : Option SlotRef → ManagerM A α}
    {locked : SlotRef → ClientMountState → ManagerM A α}
    (hnone : m.slots.lookup c = none → Ensures (k none) m post)
    (heq : ∀ r, k (some r) = (lockSlot r).bind (locked r)) (hk : ∀ r m₁, Alike m m₁ →
    m₁.slots.lookup c = some r → Ensures (locked r (m.mountState c)) m₁ post) :
    Ensures ((takeExistingSlot c).bind k) m post := by
  refine ensures_takeExistingSlot h hnone fun r m₁ hlike₁ _ hslot₁ => ?_
  rw [heq]
  refine ensures_lockSlot hlike₁.map hslot₁ fun m₂ hlike₂ hslot₂ => ?_
  rw [hlike₁.mountState]
  exact hk r m₂ (hlike₁.trans hlike₂) hslot₂

/-- The end of a call that works under the lock of a slot. -/
theorem ensures_leave (hlike : Alike m m₁) (hslot : m₁.slots.lookup c = some r)
    (hsame : SameSlots m₁ m₂)
    (hst : state.session = none → state.segments = ∅ ∨ state = m.mountState c)
    (hpost : ∀ m', SameBooks m₂ m' → m'.mountState = update m.mountState c state → post a m') :
    Ensures ((unlockSlot r state).bind fun _ => (dropSlot r).bind fun _ => .ret a) m₂ post := by
  refine ensures_unlockSlot (hsame.map hlike.map) (by rw [hsame.slots, hslot]) ?_
    fun m₃ hbk₃ hmap₃ hview₃ => ?_
  · intro hnone
    rcases hst hnone with hemp | rfl
    · exact hemp
    · rw [h.mountState_empty hnone, ClientMountState.default]
  rw [hsame.mountState, hlike.mountState] at hview₃
  refine ensures_dropSlot hmap₃ fun m₄ hlike₄ _ => .ret ?_
  exact hpost _ (hbk₃.trans hlike₄.toSameBooks) (hlike₄.mountState.trans hview₃)

end Frames

end Cakemaster.Client
