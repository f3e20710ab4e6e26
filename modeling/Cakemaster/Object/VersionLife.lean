import Cakemaster.Object.CatalogRuns

/-!
# The life of a committed version

A version is committed on one slot. When it has left the slot it does not come back.
-/

namespace Cakemaster.Object

open Machine Segment Sample

variable {A : UnitAllocator} {cfg : CatalogConfig} {hooks : WatermarkHooks A}
  {c c' c'' : RunningCatalog A}

/-- What later calls may do to a committed version: refresh its lease, clear its soft pin and drop
replicas. -/
structure VersionView.Aged (y y' : VersionView A) : Prop where
  born : y'.owner = y.owner ∧ y'.origin = y.origin ∧ y'.number = y.number
  hardPinned : y'.hardPinned = y.hardPinned
  softPin : y'.softPin ≤ y.softPin
  lease : y.lease ≤ y'.lease
  replicas : y'.replicas ⊆ y.replicas

theorem VersionRely.aged {x : Ghost A} {y₀ y y' : VersionView A} (h : VersionRely x u v y y')
    (hseal : y.sealed = true) (hborn : y.standing ≠ .unborn) (hy : y₀.Aged y) : y₀.Aged y' := by
  obtain ⟨-, hlease, hnum⟩ := h.sealed hseal
  obtain ⟨-, hownr, horigin⟩ := h.born hborn
  obtain ⟨hpinned, hsoft⟩ := h.pins hseal
  constructor
  · exact ⟨hownr.trans hy.born.1, horigin.trans hy.born.2.1, hnum.trans hy.born.2.2⟩
  · exact hpinned.trans hy.hardPinned
  · exact hsoft.trans hy.softPin
  · exact hy.lease.trans hlease
  · exact List.Subset.trans (h.replicas hborn) hy.replicas

/-- What every call keeps of a version is kept in a whole run. -/
theorem version_later (hrch : (catalogSystem cfg hooks).Reachable c)
    (hrun : Relation.ReflTransGen (catalogSystem cfg hooks).Step c c') {P : VersionView A → Prop}
    (hP : ∀ {x u y y'}, VersionRely x u v y y' → P y → P y') (h : P (c.shared.view.versions v)) :
    (catalogSystem cfg hooks).Reachable c' ∧ P (c'.shared.view.versions v) := by
  induction hrun with
  | refl => exact ⟨hrch, h⟩
  | tail _ hstep ih =>
    obtain ⟨hrch', h'⟩ := ih
    have htrivial : Lasting (A := A) cfg (fun _ _ => True) fun _ _ _ => True := Lasting.trivial
    obtain ⟨_, hcore, hsame | ⟨_, _, hmove⟩⟩ := htrivial.moves hrch' hstep
    all_goals refine ⟨hrch'.step hstep trivial, ?_⟩
    · rwa [hsame]
    · exact hP ((hcore.rely hmove).versions v) h'

theorem standing_of_committed (hrch : (catalogSystem cfg hooks).Reachable c)
    (hs : c.shared.committed s = some v) :
    c.shared.standing v = .published s ∧ (c.shared.view.versions v).sealed = true := by
  obtain ⟨_, -, hcore⟩ := exists_core hrch
  exact ⟨hcore.wellformed.committed hs, hcore.wellformed.sealed_of_committed hs⟩

/-- What a whole run keeps of a committed version. -/
structure VersionView.Stays (s : SlotRef) (y y' : VersionView A) : Prop where
  sealed : y'.sealed = true
  born : y'.standing ≠ .unborn
  aged : y.Aged y'
  onSlot : y'.standing.isAt s = true ∨ y'.standing.isGone = true

theorem VersionView.Stays.of_published {y : VersionView A} (hstd : y.standing = .published s)
    (hseal : y.sealed = true) : y.Stays s y where
  sealed := hseal
  born := by simp [hstd]
  aged := ⟨⟨rfl, rfl, rfl⟩, rfl, le_rfl, le_rfl, List.Subset.refl _⟩
  onSlot := .inl (by simp [hstd, Standing.isAt])

theorem VersionRely.stays {x : Ghost A} {y₀ y y' : VersionView A} (h : VersionRely x u v y y')
    (hy : y₀.Stays s y) :
    y₀.Stays s y' where
  sealed := (h.sealed hy.sealed).1
  born := (h.born hy.born).1
  aged := h.aged hy.sealed hy.born hy.aged
  onSlot := hy.onSlot.elim (h.onSlot s) fun hgone => .inr (h.gone hgone)

theorem committed_of_isAt (hrch : (catalogSystem cfg hooks).Reachable c)
    (hat : (c.shared.standing v).isAt s = true) :
    c.shared.committed s = some v ∨ c.shared.standing v = .withdrawn s ∧
    (c.shared.slots s).locked = true := by
  obtain ⟨_, -, hcore⟩ := exists_core hrch
  cases hstd : c.shared.standing v with
  | published =>
    rw [hstd] at hat
    cases of_decide_eq_true hat
    exact .inl (hcore.wellformed.published hstd)
  | withdrawn =>
    rw [hstd] at hat
    cases of_decide_eq_true hat
    obtain ⟨t, hf⟩ := hcore.taken hstd
    exact .inr ⟨rfl, ((hcore.sound t).lock _ (hf ▸ rfl)).1⟩
  | _ => simp [hstd, Standing.isAt] at hat

/-- In every run from a moment at which a version is committed, the version only ages. If it is
committed at a later moment, it is on the same slot, and in between it was, but for the time in
which a call had taken it off under the lock of the slot. -/
theorem committed_life (hreach : (catalogSystem cfg hooks).Reachable c)
    (hs : c.shared.committed s = some v)
    (hrun : Relation.ReflTransGen (catalogSystem cfg hooks).Step c c') :
    (c.shared.view.versions v).Aged (c'.shared.view.versions v) ∧
      ∀ c'' s', Relation.ReflTransGen (catalogSystem cfg hooks).Step c' c'' →
      c''.shared.committed s' = some v →
        s' = s ∧ (c'.shared.committed s = some v ∨
          c'.shared.standing v = .withdrawn s ∧ (c'.shared.slots s).locked = true) := by
  obtain ⟨hstd, hseal⟩ := standing_of_committed hreach hs
  obtain ⟨hrch', hstays⟩ := version_later hreach hrun VersionRely.stays (.of_published hstd hseal)
  refine ⟨hstays.aged, fun c'' s' hrun' hs' => ?_⟩
  obtain ⟨hrch'', haft⟩ := version_later hrch' hrun' VersionRely.stays hstays
  have hpub : (c''.shared.view.versions v).standing = .published s' :=
    (standing_of_committed hrch'' hs').1
  constructor
  · simpa [hpub, Standing.isAt, Standing.isGone] using haft.onSlot
  · refine committed_of_isAt hrch' (hstays.onSlot.resolve_right fun hgone => ?_)
    have hgone' := (version_later (P := fun y => y.standing.isGone = true) hrch' hrun' VersionRely.gone hgone).2
    rw [hpub] at hgone'
    cases hgone'

set_option maxRecDepth 20000 in
theorem committed_life_write : (after write).shared.committed 0 = some 0 ∧
    ∀ c' s', Relation.ReflTransGen system.Step (after write) c' →
      c'.shared.committed s' = some 0 → s' = 0 := by
  have hs : (after write).shared.committed 0 = some 0 := by decide +kernel
  exact ⟨hs, fun c' s' hrun hs' => ((committed_life (reachable_after _) hs .refl).2 c' s' hrun hs').1⟩

end Cakemaster.Object
