import Cakemaster.Object.TransactionLog

/-!
# Uncommitted writes are invisible

While a slot has an active transaction its committed version is the one the transaction
started from. Only the transaction's own commit replaces it; nothing else about it
changes but what ages by itself, soft pins that are due and replicas that are dead.
-/

namespace Cakemaster.Object

open Machine Segment Sample

variable {A : UnitAllocator} {x x' : Ghost A} {u u' : View A}

/-- What a call with ghost `x` may change of a published version. -/
structure VersionKept (u : View A) (x : Ghost A) (y y' : VersionView A) : Prop where
  content : y'.content = y.content
  commit : y'.commit = y.commit
  hardPinned : y'.hardPinned = y.hardPinned
  softPin : y'.softPin = y.softPin ∨
    y'.softPin = 0 ∧ ∃ now, x.kind = .collecting now ∧ y.softPin ≤ now
  subset : y'.replicas ⊆ y.replicas
  dead : ∀ r ∈ y.replicas, r ∈ y'.replicas ∨ u.live r.reservation = false

theorem VersionKept.refl (u : View A) (x : Ghost A) (y : VersionView A) : VersionKept u x y y :=
  ⟨rfl, rfl, rfl, .inl rfl, List.Subset.refl _, fun _ h => .inl h⟩

theorem Move.versionKept (hu : u.Wellformed) (hx : x.Sound u) (h : Move u x u' x')
    (hv : u.committed s = some v) : VersionKept u x (u.versions v) (u'.versions v) := by
  have hstd := hu.committed hv
  -- one version changes, and if it is `v` only what is allowed
  have hset : ∀ {w y}, u'.versions = Function.update u.versions w y →
      (v = w → VersionKept u x (u.versions w) y) → VersionKept u x (u.versions v)
      (u'.versions v) := by
    intro w y hvers hy
    rcases View.version_of_update hvers v with hsame | ⟨rfl, hnew⟩
    · rw [hsame]
      exact .refl ..
    · rw [hnew]
      exact hy rfl
  have hnot : ∀ {w : VersionRef} {standing : Standing}, u.standing w = standing →
      standing ≠ .published s → v ≠ w := by
    rintro w standing hw hne rfl
    exact hne (hw.symm.trans hstd)
  cases h with
  | make => exact hset rfl fun h => absurd h (hnot (hu.unborn le_rfl).1 nofun)
  | discard hm => exact hset rfl fun h => absurd h (hnot (hx.makes hm).1 nofun)
  | record _ _ _ _ hf =>
    obtain ⟨⟨hactv, hph, -⟩, -⟩ := hx.holds hf
    exact hset rfl fun h => absurd h (hnot (hu.staged hactv hph).1 nofun)
  | take hf => exact hset rfl fun h => absurd (h ▸ hstd) (View.Settled.ne (hx.holds hf) rfl)
  | unpin hkind _ hdue =>
    exact hset rfl fun _ => { VersionKept.refl u x _ with softPin := .inr ⟨rfl, _, hkind, hdue⟩ }
  | @prune s' w replicas live hf hsub hdead =>
    have hrpl := (hx.holds hf).2
    refine hset rfl fun _ => { VersionKept.refl u x _ with subset := ?_, dead := fun r hr => ?_ }
    · rw [hrpl]
      exact hsub.subset
    · exact (hdead r (hrpl ▸ hr)).imp_right (hx.dead _)
  | @publish s' a w =>
    obtain ⟨_, haft⟩ := u.version_publish a.base w (.published s') v
    change VersionKept u x (u.versions v) (((u.detach a.base).setStanding w (.published s')).versions v)
    rw [haft]
    exact { VersionKept.refl u x _ with }
  | raise | mark | unmark | pass | refuse | stage | abandon | sampleReplaced | withdraw | restore
  | depart | departEvicted | expel | lose => exact hset rfl fun _ => { VersionKept.refl u x _ with }
  | _ => exact .refl ..

/-- The committed version of a slot with a transaction changes by its own commit only. -/
theorem Move.committedKept (hu : u.Wellformed) (hx : x.Sound u) (h : Move u x u' x')
    (ha : u.active s = some a) :
    u'.committed s = u.committed s ∨ x.kind = .committing s a.id ∧ u'.active s = none ∧
      ∃ v, a.phase = .staged v ∧ u'.committed s = some v := by
  rcases h.committed_cases s with hsame | hcommits
  · exact .inl hsame
  have hbusy : u.active s ≠ none := by simp [ha]
  generalize haft : u'.committed s = after at hcommits
  cases hcommits with
  | insert hnew => exact absurd hnew (hu.lt_slotCount (.inr hbusy)).ne
  | @publish b v hkind hf hnone =>
    obtain ⟨hactv, hph, -⟩ := (hx.holds hf).1
    cases ha.symm.trans hactv
    exact .inr ⟨hkind, hnone, v, hph, rfl⟩
  | withdraw hf | expel hf => exact absurd (hx.holds hf).1 hbusy
  | restore hf => exact absurd (hu.withdrawn (hx.holds hf)).2.1 hbusy
  | lose hf => exact absurd (hx.holds hf).1 hbusy

/-! ### Runs -/

/-- The committed version `v` as it is, but for its leases and marks, for a soft pin that
was due at the `now` of a running collector step, and for dead replicas. -/
structure RecordKept (c c' : RunningCatalog A) (v : VersionRef) : Prop where
  content : (c'.shared.versions v).content = (c.shared.versions v).content
  commit : (c'.shared.versions v).committed.map (·.commit) = (c.shared.versions v).committed.map
    (·.commit)
  hardPinned : (c'.shared.access v).hardPinned = (c.shared.access v).hardPinned
  softPin : (c'.shared.access v).softPinUntil = (c.shared.access v).softPinUntil ∨
    (c'.shared.access v).softPinUntil = 0 ∧
    ∃ t r now budget targets watermark, c.threads t = some r ∧
      r.call = .collectStep now budget targets watermark ∧ (c.shared.access v).softPinUntil ≤ now
  subset : (c'.shared.versions v).replicas ⊆ (c.shared.versions v).replicas
  dead : ∀ r ∈ (c.shared.versions v).replicas, r ∈ (c'.shared.versions v).replicas ∨
    c.shared.pool.isLive r.reservation = false

theorem RecordKept.of_version_eq {c c' : RunningCatalog A} {v : VersionRef}
    (h : c'.shared.versions v = c.shared.versions v) : RecordKept c c' v where
  content := by rw [h]
  commit := by rw [h]
  hardPinned := by simp [World.access, h]
  softPin := .inl (by simp [World.access, h])
  subset := by rw [h]; exact List.Subset.refl _
  dead _ hr := .inl (by rwa [h])

/-- The step is the one by which the commit of transaction `a` publishes its version. -/
def OwnCommit (c c' : RunningCatalog A) (s : SlotRef) (a : ActiveTransaction) : Prop :=
  (∃ t r transaction content now, c.threads t = some r ∧ r.call = .commit transaction content now ∧
    transaction.slot = s ∧ transaction.id = a.id) ∧
  c'.shared.active s = none ∧ ∃ v, a.phase = .staged v ∧ c'.shared.committed s = some v

/-- What a transaction leaves alone until it is committed. -/
structure TransactionsInvisible (cfg : CatalogConfig) (hooks : WatermarkHooks A)
    (c : RunningCatalog A) : Prop where
  base : ∀ s a, c.shared.active s = some a → c.shared.committed s = a.base
  replaced : ∀ c', (catalogSystem cfg hooks).Step c c' → ∀ s a, c.shared.active s = some a →
    c'.shared.committed s = a.base ∨ OwnCommit c c' s a
  kept : ∀ c', (catalogSystem cfg hooks).Step c c' → ∀ s v, c.shared.active s ≠ none →
    c.shared.committed s = some v → RecordKept c c' v
  -- a commit that finds its transaction gone has not failed the check of its base
  gone : ∀ d ∈ c.completed, ∀ transaction content now, d.call = .commit transaction content now →
    d.result = .committed (.error .transactionGone) →
    ∃ p ∈ d.trace, p.1.indexed transaction.slot = false ∨
      ¬p.1.Staged transaction.slot transaction.id transaction.pending

/-- Commits that found their transaction gone have seen it not staged. -/
def Excused (_ : View A) (_ : ℕ → Ghost A) (done : Returned A) : Prop :=
  ∀ d ∈ done, ∀ transaction content now, d.call = .commit transaction content now →
    d.result = .committed (.error .transactionGone) →
    ∃ p ∈ d.trace, p.1.indexed transaction.slot = false ∨
      ¬p.1.Staged transaction.slot transaction.id transaction.pending

theorem excused_lasting : Lasting (A := A) cfg (fun _ _ => True) Excused where
  new _ := by simp [Excused]
  invoke _ _ h _ := h
  step _ h _ _ := h
  finish {u gs done t call result trace} hcore h hpost htrk := by
    refine List.forall_mem_cons.mpr ⟨?_, h⟩
    rintro _ _ _ rfl rfl
    obtain ⟨_, hr, _, missing, astray, hg, -, hgone⟩ := hpost
    cases hr
    rcases hgone rfl with rfl | rfl
    · exact htrk.missing _ _ _ (by rw [hg])
    · have hastray := (hcore.sound t).astray
      rw [hg] at hastray
      cases hastray

/-- While a transaction is active nothing but its own commit changes what its slot has
committed, so the check of its base cannot fail and every other end leaves it in place. -/
theorem transactions_invisible {cfg : CatalogConfig} {hooks : WatermarkHooks A}
    {c : RunningCatalog A} (hreach : (catalogSystem cfg hooks).Reachable c) :
    TransactionsInvisible cfg hooks c := by
  obtain ⟨gs, -, hcore, hexcused⟩ := excused_lasting.reachable hreach
  refine ⟨fun s a ha => hcore.wellformed.base ha, ?_, ?_, hexcused⟩
  · intro c' hstep s a ha
    have hbase : c.shared.committed s = a.base := hcore.wellformed.base ha
    obtain ⟨gs, hcore, -, hcases⟩ := excused_lasting.transition hreach hstep
    rcases hcases with hsame | henv | ⟨t, r, _, x', hr, htrack, hmove, -⟩
    · exact .inl (hsame ▸ hbase)
    · exact .inl ((congrArg (·.committed s) henv.owned).trans hbase)
    · rcases hmove.committedKept hcore.wellformed (hcore.sound t) ha with hkept | ⟨hkind, hnone, hv⟩
      · exact .inl (hkept.trans hbase)
      · obtain ⟨transaction, content, now, hcall, hslot, hid⟩ :=
          CatalogCall.eq_commit_of_kind (htrack.kind.symm.trans hkind)
        exact .inr ⟨⟨t, r, transaction, content, now, hr, hcall, hslot, hid⟩, hnone, hv⟩
  intro c' hstep s v _ hv
  obtain ⟨gs, hcore, -, hcases⟩ := excused_lasting.transition hreach hstep
  rcases hcases with hsame | henv | ⟨t, r, _, x', hr, htrack, hmove, -⟩
  · exact .of_version_eq (by rw [hsame])
  · exact .of_version_eq (congrArg (·.versions v) henv.owned)
  · have hkept := hmove.versionKept hcore.wellformed (hcore.sound t) hv
    refine ⟨hkept.content, hkept.commit, hkept.hardPinned, ?_, hkept.subset, hkept.dead⟩
    refine hkept.softPin.imp_right fun ⟨hzero, now, hkind, hdue⟩ => ⟨hzero, ?_⟩
    obtain ⟨budget, targets, watermark, hcall⟩ :=
      CatalogCall.eq_collectStep_of_kind (htrack.kind.symm.trans hkind)
    exact ⟨t, r, now, budget, targets, watermark, hr, hcall, hdue⟩

set_option maxRecDepth 20000 in
/-- A second writer has a claim on a key with a committed version. -/
theorem transactions_invisible_upsert :
    ∃ c, system.Reachable c ∧ c.shared.committed 0 = some 0 ∧ (c.shared.active 0).isSome = true ∧
      TransactionsInvisible .default hooks c := by
  have hreach := reachable_after (write ++
    .invoke 1 (.beginWrite identity (.unmanaged ⟨0, 2⟩) .upsert ⟨.preserve, none, false⟩ 7) :: steps 1 20)
  exact ⟨_, hreach, by decide +kernel, by decide +kernel, transactions_invisible hreach⟩

end Cakemaster.Object
