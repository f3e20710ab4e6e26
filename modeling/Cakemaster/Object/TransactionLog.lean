import Cakemaster.Object.CatalogRuns

/-!
# One transaction at a time, resolved once

The transactions of a key in every interleaving: at most one is active, ids are not
reused, each staged one is committed or given up exactly once, and the ids of a slot's
commits increase. A call with a transaction of a slot touches no other slot, so it
cannot disturb the slot that has replaced its own in the index.
-/

namespace Cakemaster.Object

open Machine Segment Sample

variable {A : UnitAllocator}

/-- The transaction is staged in the slot with the version. -/
def World.Staged (w : World A) (s : SlotRef) (id : TransactionId) (v : VersionRef) : Prop :=
  ∃ a, w.active s = some a ∧ a.id = id ∧ a.phase = .staged v

/-- A transition leaves all slots but `home` and the index as they are. -/
def World.OnlySlot (home : SlotRef) (w w' : World A) : Prop :=
  (∀ s, s ≠ home → w'.slots s = w.slots s) ∧ w'.lookupSlot = w.lookupSlot

/-- A call with a claim or a transaction of a slot works on that slot only. -/
def StaysHome (call : CatalogCall A) (trace : List (World A × World A)) : Prop :=
  ∀ home, call.kind.home = some home → ∀ p ∈ trace, World.OnlySlot home p.1 p.2

theorem ObjectSlot.view_injective : Function.Injective ObjectSlot.view := by
  rintro ⟨⟩ ⟨⟩ h
  simp only [ObjectSlot.view, SlotView.mk.injEq] at h
  simp [h]

theorem World.OnlySlot.of_view {home : SlotRef} {w w' : World A}
    (h : View.Confined home w.view w'.view) :
    World.OnlySlot home w w' :=
  ⟨fun s hs => ObjectSlot.view_injective (h.1 s hs), h.2⟩

theorem Track.staysHome {call : CatalogCall A} {trace : List (World A × World A)} {g : Ghost A}
    (h : Track call trace g) : StaysHome call trace :=
  fun home hhome p hp => .of_view (h.confined home hhome p hp)

/-! ### What one move does to transactions -/

section Moves

variable {x x' : Ghost A} {u u' : View A}

theorem Move.begins (hlog : u.Logged) (hx : x.Sound u) (h : Move u x u' x')
    (ha : u'.active s = some a) (hnew : ∀ b, u.active s = some b → b.id ≠ a.id) :
    (s, a.id) ∉ u.begun ∧ (s, a.id) ∈ u'.begun := by
  rcases h.active_cases s with hsame | htra
  · exact absurd rfl (hnew a (hsame ▸ ha))
  · rw [ha] at htra
    cases htra with
    | insert hslot hbgn =>
      refine ⟨fun hmem => ?_, by simp [hbgn]⟩
      exact (hlog.past _ hmem).1.ne hslot
    | claim hf hbgn => exact ⟨fun hmem => (hlog.past _ hmem).2.false, by simp [hbgn]⟩
    | @stage _ _ b _ hf => exact absurd rfl (hnew b (hx.holds hf))

theorem Move.resolves (hu : u.Wellformed) (hx : x.Sound u) (h : Move u x u' x') {s : SlotRef}
    {id : TransactionId} {v : VersionRef} (hstg : u.StagedAt s id v) (hgone : ¬u'.StagedAt s id v) :
    ∃ outcome, u'.resolved = u.resolved ++ [⟨s, id, v, outcome⟩] ∧
    (outcome = none ∧ u'.committed s = u.committed s ∨
        outcome = some (u.versions v).number ∧ u'.committed s = some v) := by
  obtain ⟨a, ha, rfl, hph⟩ := hstg
  rcases h.active_cases s with hsame | htra
  · exact absurd ⟨a, hsame ▸ ha, rfl, hph⟩ hgone
  generalize u'.active s = after at htra
  have hbusy : ∀ {b}, x.focus = .busy s b → b = a := by
    intro b hf
    have hb : u.active s = some b := hx.holds hf
    exact Option.some.inj (hb.symm.trans ha)
  cases htra with
  | insert hslot => exact absurd hslot (hu.lt_slotCount (.inr (by simp [ha]))).ne
  | claim hf => simp [(hx.holds hf).1.2.1] at ha
  | unclaim hf hclm | stage _ hf hclm =>
    rw [hbusy hf, hph] at hclm
    cases hclm
  | abandon hf hph' _ hrsv hcomm =>
    cases hbusy hf
    cases hph.symm.trans hph'
    exact ⟨none, View.activeId_eq ha ▸ hrsv, .inl ⟨rfl, hcomm⟩⟩
  | publish _ hf hrsv hcomm =>
    obtain ⟨hactv, hph', -⟩ := (hx.holds hf).1
    cases ha.symm.trans hactv
    cases hph.symm.trans hph'
    exact ⟨_, View.activeId_eq ha ▸ hrsv, .inr ⟨rfl, hcomm⟩⟩

end Moves

/-! ### Runs -/

/-- What the calls that have returned say of transactions is in the log. -/
structure Reported (u : View A) (_ : ℕ → Ghost A) (done : Returned A) : Prop where
  committed : ∀ d ∈ done, ∀ transaction content now v, d.call = .commit transaction content now →
    d.result = .committed (.ok v) →
    ∃ number, ⟨transaction.slot, transaction.id, v, some number⟩ ∈ u.resolved
  aborted : ∀ d ∈ done, ∀ transaction now, d.call = .abort transaction now →
    d.result = .aborted (.ok ()) →
    ⟨transaction.slot, transaction.id, transaction.pending, none⟩ ∈ u.resolved
  home : ∀ d ∈ done, StaysHome d.call d.trace

theorem reported_lasting : Lasting (A := A) cfg (fun _ _ => True) Reported where
  new _ := ⟨by simp, by simp, by simp⟩
  invoke _ _ h _ := ⟨h.committed, h.aborted, h.home⟩
  step {u gs done t u' x'} hcore h hmove _ := by
    have hsub := (hcore.rely hmove).resolved_subset
    refine ⟨fun d hd transaction content now v hcall hres => ?_,
      fun d hd transaction now hcall hres => ?_, h.home⟩
    · obtain ⟨number, hmem⟩ := h.committed d hd transaction content now v hcall hres
      exact ⟨number, hsub hmem⟩
    · exact hsub (h.aborted d hd transaction now hcall hres)
  finish {u gs done t call result trace} hcore h hpost htrk := by
    have hkn := (hcore.sound t).known
    refine ⟨List.forall_mem_cons.mpr ⟨?_, h.committed⟩, List.forall_mem_cons.mpr ⟨?_, h.aborted⟩,
      List.forall_mem_cons.mpr ⟨htrk.staysHome, h.home⟩⟩
    · rintro transaction content now v rfl rfl
      obtain ⟨r, hr, known, _, _, hg, hok, -⟩ := hpost
      cases hr
      obtain ⟨number, hmem⟩ := hok v rfl
      exact ⟨number, hkn (by rw [hg]; exact hmem)⟩
    · rintro transaction now rfl rfl
      obtain ⟨r, hr, known, hg, hok⟩ := hpost
      cases hr
      exact hkn (by rw [hg]; exact hok rfl)

/-- The transactions of each key. -/
structure TransactionDiscipline (cfg : CatalogConfig) (hooks : WatermarkHooks A)
    (c : RunningCatalog A) : Prop where
  single : ∀ s s', c.shared.active s ≠ none → c.shared.active s' ≠ none →
    (c.shared.slots s).identity = (c.shared.slots s').identity → s = s'
  -- ids of transactions: each new one is logged and was not used before
  begins : ∀ c', (catalogSystem cfg hooks).Step c c' → ∀ s a, c'.shared.active s = some a →
    (∀ b, c.shared.active s = some b → b.id ≠ a.id) →
    (s, a.id) ∉ c.shared.history.begun ∧ (s, a.id) ∈ c'.shared.history.begun
  begun : c.shared.history.begun.Nodup
  -- resolution: a staged transaction ends as a commit or without a trace, and is then in the log
  resolves : ∀ c', (catalogSystem cfg hooks).Step c c' → ∀ s id v, c.shared.Staged s id v →
    ¬c'.shared.Staged s id v →
    ∃ outcome, c'.shared.history.resolved = c.shared.history.resolved ++ [⟨s, id, v, outcome⟩] ∧
      (outcome = none ∧ c'.shared.committed s = c.shared.committed s ∨
        outcome = some (c.shared.versionId v) ∧ c'.shared.committed s = some v)
  once : (c.shared.history.resolved.map fun r => (r.slot, r.id)).Nodup
  committed : ∀ d ∈ c.completed, ∀ transaction content now v,
    d.call = .commit transaction content now → d.result = .committed (.ok v) →
    ∃ number, ⟨transaction.slot, transaction.id, v, some number⟩ ∈ c.shared.history.resolved
  aborted : ∀ d ∈ c.completed, ∀ transaction now, d.call = .abort transaction now →
    d.result = .aborted (.ok ()) →
    ⟨transaction.slot, transaction.id, transaction.pending, none⟩ ∈ c.shared.history.resolved
  -- ids of versions
  increasing : c.shared.history.resolved.Pairwise fun r r' => r.slot = r'.slot →
    ∀ number number', r.outcome = some number → r'.outcome = some number' → number < number'
  installed : ∀ s v, c.shared.committed s = some v →
    ⟨s, (c.shared.versions v).origin, v, some (c.shared.versionId v)⟩ ∈ c.shared.history.resolved
  -- old transactions
  running : ∀ t r, c.threads t = some r → StaysHome r.call r.trace
  returned : ∀ d ∈ c.completed, StaysHome d.call d.trace

/-- The transaction machine of every key in every interleaving. -/
theorem transactions_disciplined {cfg : CatalogConfig} {hooks : WatermarkHooks A}
    {c : RunningCatalog A} (hreach : (catalogSystem cfg hooks).Reachable c) :
    TransactionDiscipline cfg hooks c := by
  obtain ⟨gs, hghosts, hcore, hreported⟩ := reported_lasting.reachable hreach
  refine {
    single := ?_, begins := ?_, begun := hcore.logged.begun, resolves := ?_, once :=
      hcore.logged.once
    committed := hreported.committed, aborted := hreported.aborted, increasing :=
      hcore.logged.increasing
    installed := ?_, running := fun t r hr => (hghosts.running t r hr).2.staysHome, returned :=
      hreported.home }
  · intro s s' hs hs' hidentity
    have h := of_decide_eq_true (hcore.wellformed.used (.inr hs))
    have h' := of_decide_eq_true (hcore.wellformed.used (.inr hs'))
    rw [show (c.shared.view.slots s').identity = _ from hidentity.symm] at h'
    exact Option.some.inj (h.symm.trans h')
  · intro c' hstep s a ha hnew
    obtain ⟨gs, hcore, hcases⟩ := reported_lasting.moves hreach hstep
    rcases hcases with hsame | ⟨t, x', hmove⟩
    · exact absurd rfl (hnew a (hsame ▸ ha))
    · exact hmove.begins hcore.logged (hcore.sound t) ha hnew
  · intro c' hstep s id v hstaged hgone
    obtain ⟨gs, hcore, hcases⟩ := reported_lasting.moves hreach hstep
    rcases hcases with hsame | ⟨t, x', hmove⟩
    · exact absurd (hsame ▸ hstaged) hgone
    · exact hmove.resolves hcore.wellformed (hcore.sound t) hstaged hgone
  · intro s v hv
    refine hcore.logged.onSlot ?_
    rw [hcore.wellformed.committed hv]
    exact decide_eq_true rfl

set_option maxRecDepth 20000 in
theorem transactions_disciplined_write :
    ∃ c, system.Reachable c ∧ c.shared.history.resolved = [⟨0, 1, 0, some 1⟩] ∧
      TransactionDiscipline .default hooks c :=
  ⟨_, reachable_after write, by decide +kernel, transactions_disciplined (reachable_after _)⟩

end Cakemaster.Object
