import Cakemaster.Object.MoveRely

/-!
# Moves keep the store well formed
-/

namespace Cakemaster.Object

open Segment Standing Function List

variable {A : UnitAllocator} {x x' : Ghost A} {u u' : View A}
variable {y : VersionView A} {s : SlotRef} {v : VersionRef}

/-! ### Sane versions -/

/-- A version that has its commit record moves on. -/
theorem VersionView.Sane.setStanding {live : Reservation A → Bool}
    {standing : Standing} (standing' : Standing) (hy : y.Sane live) (hstd : y.standing = standing)
    (hheld : standing.isHeld = true)
    (hlost : standing' = .lost → ∀ r ∈ y.replicas, live r.reservation = false) :
    ({ y with standing := standing' } : VersionView A).Sane live where
  held _ := hy.held (hstd ▸ hheld)
  reclaimed hrcl := by
    subst hstd
    rcases hy.reclaimed hrcl with h | h
    all_goals cases hs : y.standing <;> simp_all [isHeld, isSettled]
  lost := hlost

theorem VersionView.Sane.of_young
    (hheld : y.standing.isHeld = false) (hrcl : y.reclaimed = true → y.standing.isSettled = true)
    (hlost : y.standing ≠ .lost) : y.Sane live where
  held h := by
    rw [hheld] at h
    cases h
  reclaimed h := .inr (hrcl h)
  lost h := absurd h hlost

namespace View.Wellformed

theorem lt_versionCount (hu : u.Wellformed) (hborn : u.standing v ≠ .unborn) :
    v < u.versionCount := by
  by_contra hv
  exact hborn (hu.unborn (not_lt.mp hv)).1

theorem lt_slotCount (hu : u.Wellformed) (hs : u.committed s ≠ none ∨ u.active s ≠ none) :
    s < u.slotCount := (hu.index (of_decide_eq_true (hu.used hs))).1

theorem not_reclaimed (hu : u.Wellformed) (hnew : u.standing v ≠ .fresh)
    (hstld : (u.standing v).isSettled = false) : (u.versions v).reclaimed = false := by
  by_contra h
  rcases (hu.sane v).reclaimed (Bool.not_eq_false _ ▸ h) with hv | hv
  · exact hnew hv
  · rw [View.standing, hv] at hstld
    cases hstld

/-! ### One slot -/

theorem setSlot (hu : u.Wellformed) (hiden : (f (u.slots s)).identity = (u.slots s).identity)
    (hcomm : (f (u.slots s)).committed = u.committed s)
    (hstg : ∀ a v, (f (u.slots s)).active = some a → a.phase = .staged v → u.active s = some a)
    (hbase : ∀ a, (f (u.slots s)).active = some a → u.committed s = a.base)
    (hused : (f (u.slots s)).active ≠ none → u.indexed s = true)
    (hwd : ∀ v, u.standing v = .withdrawn s → (f (u.slots s)).active = none) :
    (u.setSlot s f).Wellformed := by
  have hidx : ∀ s', (u.setSlot s f).indexed s' = u.indexed s' := by
    intro s'
    by_cases hs : s' = s
    · subst hs
      simp [View.indexed, View.setSlot, hiden]
    · simp [View.indexed, View.setSlot, hs]
  have hself : (u.setSlot s f).committed s = u.committed s ∧
      (u.setSlot s f).active s = (f (u.slots s)).active := by
    simp [View.committed, View.active, View.setSlot, hcomm]
  have hoth : ∀ s', s' ≠ s → (u.setSlot s f).committed s' = u.committed s' ∧
      (u.setSlot s f).active s' = u.active s' := by
    intro s' hs
    simp [View.committed, View.active, View.setSlot, hs]
  have hsame : ∀ s', (u.setSlot s f).committed s' = u.committed s' := by
    intro s'
    by_cases hs : s' = s
    · exact hs ▸ hself.1
    · exact (hoth s' hs).1
  have hid : ∀ s', ((u.setSlot s f).slots s').identity = (u.slots s').identity := by
    intro s'
    by_cases hs : s' = s
    · subst hs
      simp [View.setSlot, hiden]
    · simp [View.setSlot, hs]
  refine { hu with
    committed := fun {s' v} hv => hu.committed (hsame s' ▸ hv)
    published := fun {s' v} hv => (hsame s').trans (hu.published hv)
    staged := fun {s' a v} ha hph => ?_, base := fun {s' a} ha => ?_
    withdrawn := fun {s' v} hv => ?_, used := fun {s'} h => ?_
    index := fun hi => ⟨(hu.index hi).1, (hid _).trans (hu.index hi).2⟩
    empties := fun c hc => ⟨(hu.empties c hc).1, (hid _).trans (hu.empties c hc).2⟩ }
  all_goals by_cases hs : s' = s
  · subst hs
    exact hu.staged (hstg a v (hself.2 ▸ ha) hph) hph
  · exact hu.staged ((hoth s' hs).2 ▸ ha) hph
  · subst hs
    exact hself.1.trans (hbase a (hself.2 ▸ ha))
  · exact (hoth s' hs).1.trans (hu.base ((hoth s' hs).2 ▸ ha))
  · subst hs
    obtain ⟨hnone, -, hin⟩ := hu.withdrawn hv
    exact ⟨hself.1.trans hnone, hself.2.trans (hwd v hv), (hidx _).trans hin⟩
  · obtain ⟨hnone, hidle, hin⟩ := hu.withdrawn hv
    exact ⟨(hoth s' hs).1.trans hnone, (hoth s' hs).2.trans hidle, (hidx s').trans hin⟩
  · subst hs
    rw [hself.1, hself.2] at h
    rw [hidx]
    exact h.elim (fun h => hu.used (.inl h)) hused
  · rw [(hoth s' hs).1, (hoth s' hs).2] at h
    rw [hidx]
    exact hu.used h

theorem touchSlot (hu : u.Wellformed) (hiden : (f (u.slots s)).identity = (u.slots s).identity)
    (hcomm : (f (u.slots s)).committed = u.committed s)
    (hactv : (f (u.slots s)).active = u.active s) : (u.setSlot s f).Wellformed :=
  hu.setSlot hiden hcomm (fun _ _ h _ => hactv ▸ h) (fun _ h => hu.base (hactv ▸ h))
    (fun h => hu.used (.inr (hactv ▸ h))) fun _ h => hactv.trans (hu.withdrawn h).2.1

/-! ### One version -/

section

variable (hu : u.Wellformed)
include hu

theorem sealed_of_committed (hs : u.committed s = some v) : (u.versions v).sealed = true := by
  refine (hu.sane v).held ?_
  rw [show (u.versions v).standing = _ from hu.committed hs]
  rfl

/-- A version changes that no slot refers to, or it stays where it is. -/
theorem setVersion (hborn : v < u.versionCount ∨ (f (u.versions v)).standing = u.standing v ∧
      (f (u.versions v)).sealed = (u.versions v).sealed) (hsane : (f (u.versions v)).Sane u.live)
    (hcomm : ∀ s, (f (u.versions v)).standing = .published s ↔ u.standing v = .published s)
    (hwd : ∀ s, (f (u.versions v)).standing = .withdrawn s → u.standing v = .withdrawn s)
    (hstg : ∀ s a, u.active s = some a → a.phase = .staged v →
      (f (u.versions v)).standing = .staged s ∧ (f (u.versions v)).owner = a.owner ∧
      (f (u.versions v)).origin = a.id)
    (hnew : (u.standing v).isNew = false → (f (u.versions v)).standing.isNew = false) :
    (u.setVersion v f).Wellformed := by
  have hoth : ∀ v', v' ≠ v → (u.setVersion v f).versions v' = u.versions v' :=
    fun v' hv => update_of_ne hv _ _
  have hself : (u.setVersion v f).versions v = f (u.versions v) := update_self v _ _
  have hque : ∀ v', (u.standing v').isNew = false →
      ((u.setVersion v f).standing v').isNew = false := by
    intro v' hv'
    by_cases hv : v' = v
    · subst hv
      rw [View.standing, hself]
      exact hnew hv'
    · rwa [View.standing, hoth v' hv]
  have hstd : ∀ s v', (u.setVersion v f).standing v' = .published s ↔
      u.standing v' = .published s := by
    intro s v'
    by_cases hv : v' = v
    · subst hv
      rw [View.standing, hself]
      exact hcomm s
    · rw [View.standing, hoth v' hv]
      rfl
  refine { hu with
    committed := fun hs => (hstd _ _).mpr (hu.committed hs)
    published := fun hs => hu.published ((hstd _ _).mp hs)
    staged := fun {s a v'} ha hph => ?_, withdrawn := fun {s v'} hs =>
      hu.withdrawn (s := s) (v := v') ?_
    unborn := fun {v'} hv => ?_, sane := fun v' => ?_
    queue := fun c hc => hque _ (hu.queue c hc) }
  all_goals by_cases hv' : v' = v
  · subst hv'
    rw [View.standing, hself]
    exact hstg s a ha hph
  · rw [View.standing, hoth v' hv']
    exact hu.staged ha hph
  · subst hv'
    rw [View.standing, hself] at hs
    exact hwd s hs
  · rwa [View.standing, hoth v' hv'] at hs
  · subst hv'
    obtain ⟨hsame, hseal⟩ := hborn.resolve_left (not_lt.mpr hv)
    rw [View.standing, hself, hsame, hseal]
    exact hu.unborn hv
  · rw [View.standing, hoth v' hv']
    exact hu.unborn hv
  · subst hv'
    rw [hself]
    exact hsane
  · rw [hoth v' hv']
    exact hu.sane v'

theorem touchVersion (hborn : v < u.versionCount ∨ (f (u.versions v)).sealed = (u.versions v).sealed)
    (hsane : (f (u.versions v)).Sane u.live) (hstd : (f (u.versions v)).standing = u.standing v)
    (hownr : (f (u.versions v)).owner = (u.versions v).owner)
    (horigin : (f (u.versions v)).origin = (u.versions v).origin) :
    (u.setVersion v f).Wellformed := by
  refine hu.setVersion (hborn.imp_right fun h => ⟨hstd, h⟩) hsane (fun s => by rw [hstd])
    (fun s hs => hstd ▸ hs) ?_ fun h => hstd ▸ h
  intro s a ha hph
  rw [hstd, hownr, horigin]
  exact hu.staged ha hph

theorem moveOn {standing : Standing} (standing' : Standing)
    (hv : u.standing v = standing) (hheld : standing.isHeld = true)
    (hpub : ∀ s, standing ≠ .published s) (hstld : standing'.isSettled = true)
    (hlost : standing' ≠ .lost) : (u.setStanding v standing').Wellformed := by
  have hborn : u.standing v ≠ .unborn := by
    intro h
    rw [← hv, h] at hheld
    cases hheld
  have hstg : ∀ s, standing ≠ .staged s := by
    rintro s rfl
    cases hheld
  have hne : ∀ s, standing' ≠ .published s ∧ standing' ≠ .withdrawn s := by
    intro s
    constructor
    all_goals
      rintro rfl
      cases hstld
  refine hu.setVersion (.inl (hu.lt_versionCount hborn))
    ((hu.sane v).setStanding _ hv hheld fun h => absurd h hlost)
    (fun s => ⟨fun h => absurd h (hne s).1, fun h => absurd (hv.symm.trans h) (hpub s)⟩)
    (fun s h => absurd h (hne s).2) (fun s a ha hph => absurd hph (hu.staged_ne hv hstg s a ha)) ?_
  intro _
  cases standing' <;> first | rfl | cases hstld

theorem setHand (hand : Multiset GcCandidate) : ({ u with hand } : View A).Wellformed :=
  { hu with }

end

/-! ### One slot and one version -/

variable (hu : u.Wellformed)
include hu

/-- A version moves to or off its slot, under the slot's lock. -/
theorem update {y : SlotView} {z : VersionView A}
    (hiden : y.identity = (u.slots s).identity) (hlt : v < u.versionCount)
    (hoth : ∀ s', s' ≠ s → u.standing v ≠ .published s' ∧ u.standing v ≠ .staged s')
    (hoth' : ∀ s', s' ≠ s → z.standing ≠ .published s' ∧ z.standing ≠ .withdrawn s')
    (hcomm : y.committed = some v ↔ z.standing = .published s)
    (hcomm' : ∀ v', v' ≠ v → (y.committed = some v' ↔ u.committed s = some v'))
    (hstg : ∀ a, y.active = some a → a.phase = .staged v →
      z.standing = .staged s ∧ z.owner = a.owner ∧ z.origin = a.id)
    (hstg' : ∀ a v', v' ≠ v → y.active = some a → a.phase = .staged v' → u.active s = some a)
    (hbase : ∀ a, y.active = some a → y.committed = a.base)
    (hwd : z.standing = .withdrawn s → y.committed = none ∧ y.active = none)
    (halone : ∀ v', v' ≠ v → u.standing v' ≠ .withdrawn s)
    (hidx : u.indexed s = true) (hsane : z.Sane u.live) (hnew : z.standing.isNew = false) :
    ({ u with slots := Function.update u.slots s y, versions := Function.update u.versions v z } :
      View A).Wellformed := by
  let u₁ : View A :=
    { u with slots := Function.update u.slots s y, versions := Function.update u.versions v z }
  have hin : ∀ s', u₁.indexed s' = u.indexed s' := by
    intro s'
    by_cases hs : s' = s
    · subst hs
      simp [u₁, View.indexed, hiden]
    · simp [u₁, View.indexed, hs]
  have hself : u₁.committed s = y.committed ∧ u₁.active s = y.active ∧ u₁.versions v = z := by
    simp [u₁, View.committed, View.active]
  have hslot : ∀ s', s' ≠ s → u₁.committed s' = u.committed s' ∧ u₁.active s' = u.active s' := by
    intro s' hs
    simp [u₁, View.committed, View.active, hs]
  have hver : ∀ v', v' ≠ v → u₁.versions v' = u.versions v' :=
    fun v' hv => Function.update_of_ne hv _ _
  have hpub : ∀ s' v', u₁.committed s' = some v' ↔ u₁.standing v' = .published s' := by
    intro s' v'
    by_cases hs : s' = s <;> by_cases hv : v' = v
    · subst hs hv
      rw [hself.1, View.standing, hself.2.2]
      exact hcomm
    · subst hs
      rw [hself.1, View.standing, hver v' hv, hcomm' v' hv]
      exact ⟨hu.committed, hu.published⟩
    · subst hv
      rw [(hslot s' hs).1, View.standing, hself.2.2]
      refine ⟨fun h => absurd (hu.committed h) (hoth s' hs).1, fun h => absurd h (hoth' s' hs).1⟩
    · rw [(hslot s' hs).1, View.standing, hver v' hv]
      exact ⟨hu.committed, hu.published⟩
  have hid : ∀ s', (u₁.slots s').identity = (u.slots s').identity := by
    intro s'
    by_cases hs : s' = s
    · subst hs
      simp [u₁, hiden]
    · simp [u₁, hs]
  refine { hu with
    committed := (hpub _ _).mp, published := (hpub _ _).mpr
    staged := fun {s' a v'} ha hph => ?_, base := fun {s' a} ha => ?_
    withdrawn := fun {s' v'} hv' => ?_, used := fun {s'} h => ?_
    index := fun hi => ⟨(hu.index hi).1, (hid _).trans (hu.index hi).2⟩
    unborn := fun {v'} hv' => ?_, sane := fun v' => ?_
    queue := fun c hc => ?_
    empties := fun c hc => ⟨(hu.empties c hc).1, (hid _).trans (hu.empties c hc).2⟩ }
  · change u₁.active s' = some a at ha
    change (u₁.versions v').standing = .staged s' ∧ (u₁.versions v').owner = a.owner ∧
      (u₁.versions v').origin = a.id
    by_cases hs : s' = s <;> by_cases hv : v' = v
    · subst hs hv
      rw [hself.2.2]
      exact hstg a (hself.2.1 ▸ ha) hph
    · subst hs
      rw [hver v' hv]
      exact hu.staged (hstg' a v' hv (hself.2.1 ▸ ha) hph) hph
    · subst hv
      rw [(hslot s' hs).2] at ha
      exact absurd (hu.staged ha hph).1 (hoth s' hs).2
    · rw [(hslot s' hs).2] at ha
      rw [hver v' hv]
      exact hu.staged ha hph
  · change u₁.active s' = some a at ha
    change u₁.committed s' = a.base
    by_cases hs : s' = s
    · subst hs
      exact hself.1.trans (hbase a (hself.2.1 ▸ ha))
    · exact (hslot s' hs).1.trans (hu.base ((hslot s' hs).2 ▸ ha))
  · change (u₁.versions v').standing = .withdrawn s' at hv'
    change u₁.committed s' = none ∧ u₁.active s' = none ∧ u₁.indexed s' = true
    rw [hin]
    by_cases hs : s' = s <;> by_cases hv : v' = v
    · subst hs hv
      rw [hself.2.2] at hv'
      rw [hself.1, hself.2.1]
      exact ⟨(hwd hv').1, (hwd hv').2, hidx⟩
    · subst hs
      rw [hver v' hv] at hv'
      exact absurd hv' (halone v' hv)
    · subst hv
      rw [hself.2.2] at hv'
      exact absurd hv' (hoth' s' hs).2
    · rw [hver v' hv] at hv'
      rw [(hslot s' hs).1, (hslot s' hs).2]
      exact hu.withdrawn hv'
  · change u₁.committed s' ≠ none ∨ u₁.active s' ≠ none at h
    change u₁.indexed s' = true
    rw [hin]
    by_cases hs : s' = s
    · exact hs ▸ hidx
    · rw [(hslot s' hs).1, (hslot s' hs).2] at h
      exact hu.used h
  · change (u₁.versions v').standing = .unborn ∧ (u₁.versions v').sealed = false
    rw [hver v' (hlt.trans_le hv').ne']
    exact hu.unborn hv'
  · change (u₁.versions v').Sane u.live
    by_cases hv : v' = v
    · subst hv
      rwa [hself.2.2]
    · rw [hver v' hv]
      exact hu.sane v'
  · change (u₁.versions c.pending).standing.isNew = false
    by_cases hv : c.pending = v
    · rw [hv, hself.2.2]
      exact hnew
    · rw [hver _ hv]
      exact hu.queue c hc

/-- The staged version of a slot takes the place of the committed one. -/
theorem publish {a : ActiveTransaction} (hactv : u.active s = some a) (hph : a.phase = .staged v)
    (hseal : (u.versions v).sealed = true) (halone : ∀ v', u.standing v' ≠ .withdrawn s) :
    (((u.setSlot s fun x => { x with committed := some v, active := none }).detach
      a.base).setStanding v (.published s)).Wellformed := by
  have hv := (hu.staged hactv hph).1
  have hidx : u.indexed s = true := hu.used (.inr (by simp [hactv]))
  have hsane : ({ u.versions v with standing := .published s } : VersionView A).Sane u.live := by
    refine ⟨fun _ => hseal, fun h => ?_, (by simp)⟩
    rw [hu.not_reclaimed (by simp [hv]) (by simp [hv, isSettled])] at h
    cases h
  -- the transaction ends and the base leaves the slot, then the slot takes `v`
  let y : SlotView := { u.slots s with committed := none, active := none }
  obtain ⟨u₁, hu₁, hslots, hver, hoths, hrest⟩ : ∃ u₁ : View A, u₁.Wellformed ∧
      u₁.slots = Function.update u.slots s y ∧ u₁.versions v = u.versions v ∧
      (∀ v', u₁.standing v' ≠ .withdrawn s) ∧
      ((u.setSlot s fun x => { x with committed := some v, active := none }).detach a.base) =
        { u₁ with slots := Function.update u.slots s { y with committed := some v } } ∧
      u₁.lookup = u.lookup ∧ u₁.live = u.live ∧ u₁.versionCount = u.versionCount := by
    have hbase := hu.base hactv
    cases hb : a.base with
    | none =>
      refine ⟨u.setSlot s fun x => { x with committed := none, active := none }, ?_, rfl, rfl,
        halone, ?_, rfl, rfl, rfl⟩
      · refine hu.setSlot rfl ?_ (by simp) (by simp) (by simp) fun _ _ => rfl
        rw [hbase, hb]
      · simp [View.detach, View.setSlot, y]
    | some old =>
      have hold := hu.committed (hbase.trans hb)
      have hne : v ≠ old := by
        rintro rfl
        rw [hv] at hold
        cases hold
      refine ⟨{ u with
        slots := Function.update u.slots s y
        versions := Function.update u.versions old { u.versions old with standing := .detached } }, ?_, rfl,
        Function.update_of_ne hne _ _, fun v' => ?_, ?_, rfl, rfl, rfl⟩
      · refine hu.update rfl (hu.lt_versionCount (by simp [hold])) (fun s' hs' => ?_) (by simp)
          (by simp [y]) (fun v' hv' => ?_) (by simp) (by simp) (by simp) (by simp)
          (fun v' _ => halone v') hidx ((hu.sane old).setStanding _ hold rfl (by simp)) rfl
        · rw [hold]
          exact ⟨fun h => hs' (published.inj h).symm, (by simp)⟩
        · rw [hbase, hb]
          simp [y, Ne.symm hv']
      · by_cases hv' : v' = old
        · simp [View.standing, hv']
        · simpa [View.standing, hv'] using halone v'
      · simp [View.detach, View.setSlot, View.setStanding, View.setVersion, y]
  rw [hrest.1]
  have hy : u₁.slots s = y := by rw [hslots, update_self]
  have hup : ({ u₁ with slots := Function.update u.slots s { y with committed := some v } } :
      View A).setStanding v (.published s) = { u₁ with
        slots := Function.update u₁.slots s { y with committed := some v }
        versions := Function.update u₁.versions v { u.versions v with standing := .published s } } := by
    rw [hslots, update_idem]
    simp [View.setStanding, View.setVersion, hver]
  have hv₁ : u₁.standing v = .staged s := by
    rw [View.standing, hver]
    exact hv
  rw [hup]
  refine hu₁.update (by rw [hy]) (hu₁.lt_versionCount (by simp [hv₁])) (fun s' hs' => ?_)
    (fun s' hs' => ?_) (by simp) (fun v' hv' => ?_) (by simp) (by simp) (by simp) (by simp)
    (fun v' _ => hoths v') ?_ ?_ rfl
  · rw [hv₁]
    exact ⟨(by simp), fun h => hs' (staged.inj h).symm⟩
  · exact ⟨fun h => hs' (published.inj h).symm, (by simp)⟩
  · rw [View.committed, hy]
    simp [y, Ne.symm hv']
  · rw [View.indexed, hy, hrest.2.1]
    exact hidx
  · rw [hrest.2.2.1]
    exact hsane

theorem insert (owner : WriteOwner) (pins : ResolvedObjectPinRequest)
    (hnone : u.lookup identity = none) :
    ({ u with
      slots := Function.update u.slots u.slotCount
        ⟨identity, none, some ⟨1, owner, none, pins, .claimed⟩, false, 2, 1, 0⟩
      slotCount := u.slotCount + 1
      lookup := Function.update u.lookup identity (some u.slotCount)
      begun := u.begun ++ [(u.slotCount, 1)] } : View A).Wellformed := by
  have hout : u.indexed u.slotCount ≠ true := fun h =>
    absurd (hu.index (of_decide_eq_true h)).1 (lt_irrefl _)
  have hin : ∀ {s}, u.indexed s = true → s ≠ u.slotCount ∧ (u.slots s).identity ≠ identity := by
    refine fun {s} h => ⟨fun hs => hout (hs ▸ h), fun hid => ?_⟩
    have hlook := of_decide_eq_true h
    rw [hid, hnone] at hlook
    cases hlook
  have hidle : u.committed u.slotCount = none ∧ u.active u.slotCount = none := by
    constructor <;> by_contra h
    · exact hout (hu.used (.inl h))
    · exact hout (hu.used (.inr h))
  have hold : ∀ {s}, u.indexed s = true → decide (Function.update u.lookup identity (some u.slotCount)
      (Function.update u.slots u.slotCount ⟨identity, none, some ⟨1, owner, none, pins, .claimed⟩,
        false, 2, 1, 0⟩ s).identity = some s) = true := by
    intro s h
    rw [Function.update_of_ne (hin h).1, Function.update_of_ne (hin h).2]
    exact h
  refine { hu with
    committed := fun {s v} hv => ?_, published := fun {s v} hv => ?_
    staged := fun {s a v} ha hv => ?_, base := fun {s a} ha => ?_
    withdrawn := fun {s v} hv => ?_, used := fun {s} h => ?_
    index := fun {i s} hi => ?_, empties := fun c hc => ?_ }
  · by_cases hs : s = u.slotCount
    · simp [View.committed, hs] at hv
    · exact hu.committed (by simpa [View.committed, hs] using hv)
  · have hcomm := hu.published hv
    have hs : s ≠ u.slotCount := by
      rintro rfl
      rw [hidle.1] at hcomm
      cases hcomm
    simpa [View.committed, hs] using hcomm
  · by_cases hs : s = u.slotCount
    · have ha : (⟨1, owner, none, pins, .claimed⟩ : ActiveTransaction) = a := by
        simpa [View.active, hs] using ha
      rw [← ha] at hv
      cases hv
    · exact hu.staged (by simpa [View.active, hs] using ha) hv
  · by_cases hs : s = u.slotCount
    · have ha : (⟨1, owner, none, pins, .claimed⟩ : ActiveTransaction) = a := by
        simpa [View.active, hs] using ha
      simp [View.committed, hs, ← ha]
    · simpa [View.committed, hs] using hu.base (by simpa [View.active, hs] using ha)
  · obtain ⟨hnone, hidle, hidx⟩ := hu.withdrawn hv
    refine ⟨?_, ?_, hold hidx⟩
    · simpa [View.committed, (hin hidx).1] using hnone
    · simpa [View.active, (hin hidx).1] using hidle
  · by_cases hs : s = u.slotCount
    · simp [View.indexed, hs]
    · exact hold (hu.used (by simpa [View.committed, View.active, hs] using h))
  · by_cases hid : i = identity
    · subst hid
      obtain rfl : u.slotCount = s := by simpa using hi
      simp
    · have hlook : u.lookup i = some s := by simpa [hid] using hi
      obtain ⟨hlt, hs⟩ := hu.index hlook
      exact ⟨Nat.lt_succ_of_lt hlt, by simpa [hlt.ne] using hs⟩
  · obtain ⟨hlt, hs⟩ := hu.empties c hc
    exact ⟨Nat.lt_succ_of_lt hlt, by simpa [hlt.ne] using hs⟩

theorem make (hrcl : y.reclaimed = false) (hstd : y.standing = .fresh) :
    ({ u with
      versions := Function.update u.versions u.versionCount y
      versionCount := u.versionCount + 1 } : View A).Wellformed := by
  have hunborn := (hu.unborn (le_refl u.versionCount)).1
  have hne : ∀ {v}, u.standing v ≠ .unborn → v ≠ u.versionCount := by
    rintro v hv rfl
    exact hv hunborn
  have hback : ∀ {v standing}, (Function.update u.versions u.versionCount y v).standing = standing →
      standing ≠ .fresh → u.standing v = standing := by
    intro v standing hv hfrs
    by_cases h : v = u.versionCount
    · rw [h, update_self, hstd] at hv
      exact absurd hv.symm hfrs
    · rwa [Function.update_of_ne h] at hv
  refine { hu with
    committed := fun {s v} hv => ?_, published := fun {s v} hv => hu.published (hback hv nofun)
    staged := fun {s a v} ha hv => ?_, withdrawn := fun {s v} hv => hu.withdrawn (hback hv nofun)
    unborn := fun {v} hv => ?_, sane := fun v => ?_, queue := fun c hc => ?_ }
  · have hpub := hu.committed hv
    simpa [View.standing, hne (v := v) (by simp [hpub])] using hpub
  · have hstg := hu.staged ha hv
    simpa [View.standing, hne (v := v) (by simp [hstg.1])] using hstg
  · have hlt : u.versionCount < v := hv
    simpa [View.standing, hlt.ne'] using hu.unborn hlt.le
  · by_cases h : v = u.versionCount
    · subst h
      simp only [update_self]
      constructor <;> simp [hstd, hrcl, isHeld]
    · simpa [h] using hu.sane v
  · have hque := hu.queue c hc
    have hborn : u.standing c.pending ≠ .unborn := by
      intro h
      rw [h] at hque
      cases hque
    simpa [View.standing, hne hborn] using hque

theorem setCounter (counter : Counter) : ({ u with counter } : View A).Wellformed :=
  { hu with }

/-- A version leaves its slot for good or is taken off it. -/
theorem takeOff (standing : Standing) (hcomm : u.committed s = some v) (hactv : u.active s = none)
    (halone : ∀ v', u.standing v' ≠ .withdrawn s)
    (hoth : ∀ s', s' ≠ s → standing ≠ .withdrawn s') (hpub : ∀ s', standing ≠ .published s')
    (hlost : standing = .lost → ∀ r ∈ (u.versions v).replicas, u.live r.reservation = false)
    (hnew : standing.isNew = false) :
    ((u.setCommitted s none).setStanding v standing).Wellformed := by
  have hv := hu.committed hcomm
  refine hu.update rfl (hu.lt_versionCount (by simp [hv])) (fun s' hs' => ?_)
    (fun s' hs' => ⟨hpub s', hoth s' hs'⟩) (by simp [hpub]) (fun v' hv' => ?_)
    (fun a ha => ?_) (fun a v' _ ha _ => ha) (fun a ha => ?_) (fun _ => ⟨rfl, hactv⟩)
    (fun v' _ => halone v') (hu.used (.inl (by simp [hcomm])))
    ((hu.sane v).setStanding _ hv rfl hlost) hnew
  · rw [hv]
    exact ⟨fun h => hs' (published.inj h).symm, nofun⟩
  · rw [hcomm]
    simp [Ne.symm hv']
  · simp [show (u.slots s).active = none from hactv] at ha
  · simp [show (u.slots s).active = none from hactv] at ha

end View.Wellformed

/-- Moves keep the store well formed. A version that is withdrawn from the slot whose lock
a call holds is the one that the call has taken. -/
theorem Move.wellformed (hu : u.Wellformed) (hx : x.Sound u)
    (htaken : ∀ s v, x.focus.lock = some s → u.standing v = .withdrawn s → x.focus = .taken s v)
    (h : Move u x u' x') : u'.Wellformed := by
  have hkn := hx.focus
  have hmak := hx.making
  have halone : ∀ {s f}, x.focus = f → f.lock = some s → (∀ v, f ≠ .taken s v) →
    ∀ v, u.standing v ≠ .withdrawn s :=
    fun hf hlock hne v hv => hne v (hf ▸ htaken _ v (hf ▸ hlock) hv)
  cases h with
  | seeDead | observe | see | sample | confirm | retry | keep | free | base | meet | vacant | point
  | hollow | idle | examine | condemn | learn | settle | dropEmpty | resolve | agree | disagree | miss
  | expect | popNone | finishDrain | fence | spare | seeUnpinned | seeSoft => exact hu
  | pop | push | drop | retire | popRetired | gate | ungate => exact { hu with }
  | enqueueEmpty c hiden howes =>
    refine { hu with empties := fun c' hc' => ?_ }
    rcases mem_append.mp hc' with hc' | hc'
    · exact hu.empties c' hc'
    · rw [mem_singleton.mp hc']
      exact ⟨hx.owes _ howes, hiden.symm⟩
  | popEmpty hemps =>
    exact { hu with empties := fun c hc => hu.empties c (hemps ▸ mem_cons_of_mem _ hc) }
  | @pushEmpty c hempd =>
    refine { hu with empties := fun c' hc' => ?_ }
    rcases mem_append.mp hc' with hc' | hc'
    · exact hu.empties c' hc'
    · rw [mem_singleton.mp hc']
      exact hx.emptied c hempd
  | @enqueue o c hm =>
    rw [hm] at hmak
    refine { hu with queue := fun c' hc' => ?_ }
    rcases mem_append.mp hc' with hc' | hc'
    · exact hu.queue c' hc'
    · rw [mem_singleton.mp hc']
      exact hmak.1.2.2.1
  | requeue c _ _ _ hseen =>
    refine { hu with queue := fun c' hc' => ?_ }
    rcases mem_append.mp hc' with hc' | hc'
    · exact hu.queue c' hc'
    · rw [mem_singleton.mp hc']
      exact hx.queue c hseen
  | popSpare _ _ hpend | popDrained _ hpend =>
    exact { hu with queue := fun c hc => hu.queue c (hpend ▸ mem_cons_of_mem _ hc) }
  | frame hlive | release hlive =>
    refine { hu with sane := fun v => { hu.sane v with lost := fun hlost r hr => ?_ } }
    simpa using mt (hlive r.reservation) (by simp [(hu.sane v).lost hlost r hr])
  | lock | unlock | number => exact hu.touchSlot rfl rfl rfl
  | count | uncount => exact (hu.touchSlot rfl rfl rfl).setCounter _
  | @insert identity owner pins _ hnone =>
    exact hu.insert owner pins hnone
  | @claim s next base owner pins hf =>
    rw [hf] at hkn
    refine { hu.setSlot (s := s) (f := fun y => { y with
      nextTransactionId := y.nextTransactionId + 1
      active := some ⟨y.nextTransactionId, owner, base, pins, .claimed⟩ }) rfl rfl ?_ ?_ ?_ ?_ with }
    · intro a v ha hv
      rw [← Option.some.inj ha] at hv
      cases hv
    · intro a ha
      rw [← Option.some.inj ha]
      exact hkn.2
    · exact fun _ => hkn.1.1
    · exact fun v hv => absurd hv (halone hf rfl (by simp) v)
  | @unclaim s a hf => exact hu.setSlot rfl rfl (by simp) (by simp) (by simp) fun _ _ => rfl
  | @unindex s identity _ hf hlook hcomm hactv =>
    have hne : ∀ {s'}, u.indexed s' = true → s' ≠ s →
        ({ u with lookup := update u.lookup identity none } : View A).indexed s' = true := by
      intro s' hin hs'
      have hid : (u.slots s').identity ≠ identity := by
        rintro hid
        have := of_decide_eq_true hin
        rw [hid, hlook] at this
        exact hs' (Option.some.inj this).symm
      simpa [View.indexed, hid] using hin
    refine { hu with withdrawn := fun {s' v} hv => ?_, used := fun {s'} h => ?_, index := fun {i s'} hi => ?_ }
    · obtain ⟨h₁, h₂, h₃⟩ := hu.withdrawn hv
      refine ⟨h₁, h₂, hne h₃ ?_⟩
      rintro rfl
      exact halone hf rfl (by simp) v hv
    · refine hne (hu.used h) ?_
      rintro rfl
      exact h.elim (fun h => h hcomm) fun h => h hactv
    · by_cases hid : i = identity
      · subst hid
        simp at hi
      · exact hu.index (by simpa [hid] using hi)
  | make y hkind hm hrcl hseal hchk hstd =>
    exact hu.make hrcl hstd
  | enterGate hm hwr => exact { hu with stageGate := fun hw => by simp [hwr] at hw }
  | leaveGate hm | backOut hm =>
    exact { hu with stageGate := fun hw => by simp [hu.stageGate hw] }
  | closeGate _ _ _ hreaders => exact { hu with stageGate := fun _ => hreaders }
  | openGate => exact { hu with stageGate := (by simp) }
  | @stage v o s a hm hf hph hownr =>
    rw [hm] at hmak
    rw [hf] at hkn
    obtain ⟨⟨hfrs, hrcl, -, -, hv, hid⟩, -⟩ := hmak
    refine hu.update rfl (hu.lt_versionCount (by simp [hfrs])) (by simp [hfrs]) (by simp) ?_
      (fun v' _ => Iff.rfl) (fun a' ha hv' => ?_) (fun a' v' hne ha hv' => ?_) (fun a' ha => ?_)
      (by simp) (fun v' _ => halone hf rfl (by simp) v')
      (hu.used (.inr (by simp [show u.active s = _ from hkn]))) ?_ rfl
    · exact ⟨fun h => absurd h (hu.committed_ne hfrs (by simp) s), (by simp)⟩
    · cases ha
      exact ⟨rfl, hv.trans hownr.symm, hid⟩
    · cases ha
      cases hv'
      exact absurd rfl hne
    · cases ha
      exact hu.base (a := a) hkn
    · exact .of_young rfl (fun h => absurd (hrcl.symm.trans h) Bool.false_ne_true) (by simp)
  | pass hm | refuse hm =>
    refine hu.touchVersion (.inr rfl) ?_ rfl rfl rfl
    exact { hu.sane _ with }
  | discard hm =>
    rw [hm] at hmak
    refine hu.touchVersion (.inr rfl) ?_ rfl rfl rfl
    exact { hu.sane _ with reclaimed := fun _ => .inl hmak.1, lost := fun _ => by simp }
  | raise | mark | unmark | unpin => exact hu.touchVersion (.inr rfl) { hu.sane _ with } rfl rfl rfl
  | @record s a v _ _ _ _ _ hf hseal =>
    rw [hf] at hkn
    have hborn : u.standing v ≠ .unborn := by simp [(hu.staged hkn.1.1 hkn.1.2.1).1]
    exact hu.touchVersion (.inl (hu.lt_versionCount hborn)) { hu.sane _ with held := fun _ => rfl } rfl rfl rfl
  | @prune s v replicas live hf hsub =>
    rw [hf] at hkn
    have hstd := hu.committed hkn.1
    refine hu.touchVersion (.inr rfl) { hu.sane v with lost := ?_ } rfl rfl rfl
    intro hlost
    rw [View.standing, hlost] at hstd
    cases hstd
  | @take v reclaimAfter now hf hle =>
    rw [hf] at hkn
    refine hu.touchVersion (.inr rfl) ?_ rfl rfl rfl
    exact { hu.sane v with reclaimed := fun _ => .inr (View.Settled.isSettled hkn), lost := fun _ => by simp }
  | @abandon s a v now hf hph =>
    rw [hf] at hkn
    have hv := (hu.staged hkn hph).1
    refine { hu.update (s := s) (v := v) (y := { u.slots s with active := none })
      (z := { u.versions v with standing := .left now }) rfl (hu.lt_versionCount (by simp [hv]))
      (fun s' hs' => ?_) (by simp) ?_ (fun v' _ => Iff.rfl) (by simp) (by simp) (by simp) (by simp)
      (fun v' _ => halone hf rfl (by simp) v')
      (hu.used (.inr (by simp [show u.active s = _ from hkn]))) ?_ rfl with }
    · rw [hv]
      exact ⟨(by simp), fun h => hs' (staged.inj h).symm⟩
    · exact ⟨fun h => absurd h (hu.committed_ne hv (by simp) s), (by simp)⟩
    · exact .of_young rfl (fun _ => rfl) (by simp)
  | @publish s a v _ hf =>
    rw [hf] at hkn
    exact { hu.publish hkn.1.1 hkn.1.2.1 hkn.2.1 (halone hf rfl (by simp)) with }
  | @withdraw s v hf =>
    rw [hf] at hkn
    refine hu.takeOff _ hkn.2 hkn.1 (halone hf rfl (by simp)) (fun s' hs' h => hs' ?_) (by simp) (by simp) rfl
    exact (withdrawn.inj h).symm
  | @expel s v now hf =>
    rw [hf] at hkn
    exact hu.takeOff .forced hkn.2 hkn.1 (halone hf rfl (by simp)) (by simp) (by simp) (by simp) rfl
  | @lose s v replicas now hf hhand hdead =>
    rw [hf] at hkn
    refine (hu.takeOff .lost hkn.2.1 hkn.1 (halone hf rfl (by simp)) (by simp) (by simp)
      (fun _ r hr => ?_) rfl).setHand _
    exact hx.dead _ (hdead r (hkn.2.2 ▸ hr))
  | @restore s v hf =>
    rw [hf] at hkn
    obtain ⟨hcomm, hactv, hidx⟩ := hu.withdrawn hkn
    refine hu.update rfl (hu.lt_versionCount (by simp [show u.standing v = _ from hkn]))
      (fun s' _ => ?_) (fun s' hs' => ⟨fun h => hs' (published.inj h).symm, (by simp)⟩) (by simp)
      (fun v' hv' => ?_) (fun a ha => ?_) (fun a v' _ ha _ => ha) (fun a ha => ?_) (by simp)
      (fun v' hv' h => hv' ?_) hidx ((hu.sane v).setStanding _ hkn rfl (by simp)) rfl
    · rw [show u.standing v = _ from hkn]
      exact ⟨(by simp), (by simp)⟩
    · rw [hcomm]
      simp [Ne.symm hv']
    · simp [show (u.slots s).active = none from hactv] at ha
    · simp [show (u.slots s).active = none from hactv] at ha
    · cases hf.symm.trans (htaken s v' (hf ▸ rfl) h)
      rfl
  | depart hf =>
    rw [hf] at hkn
    exact hu.moveOn _ hkn rfl (by simp) rfl (by simp)
  | departEvicted hf =>
    rw [hf] at hkn
    exact (hu.moveOn (.left _) hkn rfl (by simp) rfl (by simp)).setHand _
  | sampleReplaced hf =>
    rw [hf] at hkn
    exact hu.moveOn _ hkn rfl (by simp) rfl (by simp)

end Cakemaster.Object
