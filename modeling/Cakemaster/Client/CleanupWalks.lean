import Cakemaster.Client.MountWalks
import Mathlib.Data.Multiset.Count

/-!
# Cleanups as moves

A batch of cleanups is followed from its claims to its last finish. The cleanups of a
batch belong to different clients, whose entries bear their sessions: therefore no slot
is found with another session, and every cleanup can be finished.
-/

namespace Cakemaster.Client

open Machine Machine.Prog Segment Multiset Walks
open Object (ClientSession)

variable {A : UnitAllocator} {cfg : ClientLifecycleConfig} {α : Type} {g : Ghost}
  {post : α → Ghost → Prop}

namespace Ghost

variable {m : ClientManager A} {cleanups : List ClientCleanup}

/-- A batch of cleanups: those that are still to be looked at, and those whose slots are
cleared, each with its reference. -/
structure Batch (rest : List ClientCleanup) (ready : List (ClientCleanup × Option SlotRef))
    (g : Ghost) : Prop where
  role : g.role = .cleaning
  references : g.references = (ready.filterMap (·.2) : List SlotRef)
  held : g.held = none
  claims : g.claims = (rest : Multiset ClientCleanup)
  cleared : g.cleared = (ready.map (·.1) : List ClientCleanup)

/-- The slots of the cleared cleanups are in use. -/
def Uses (ready : List (ClientCleanup × Option SlotRef)) (g : Ghost) : Prop :=
  ∀ x ∈ ready, ∀ r, x.2 = some r → g.uses x.1.session.clientId = some r

namespace Batch

variable {cleanup : ClientCleanup} {rest : List ClientCleanup}
  {ready : List (ClientCleanup × Option SlotRef)}

theorem done (h : g.Batch [] []) : g.Done where
  references := h.references
  held := h.held
  claims := h.claims
  cleared := h.cleared

theorem pass (h : g.Batch (cleanup :: rest) ready) :
    (g.clear cleanup).Batch rest (ready ++ [(cleanup, none)]) where
  role := h.role
  references := by simp [clear, h.references]
  held := h.held
  claims := by simp [clear, h.claims]
  cleared := by
    rw [clear, h.cleared, List.map_append, ← coe_add, add_comm]
    rfl

theorem clear (h : g.Batch (cleanup :: rest) ready) :
    ((g.take c r).clear cleanup).Batch rest (ready ++ [(cleanup, some r)]) where
  role := h.role
  references := by
    rw [Ghost.clear, take, h.references, List.filterMap_append, ← coe_add, add_comm]
    rfl
  held := h.held
  claims := by simp [Ghost.clear, take, h.claims]
  cleared := by
    rw [Ghost.clear, take, h.cleared, List.map_append, ← coe_add, add_comm]
    rfl

end Batch

theorem Uses.append (h : g.Uses ready)
    (hslot : ∀ r, slot = some r → g.uses cleanup.session.clientId = some r) :
    g.Uses (ready ++ [(cleanup, slot)]) := by
  intro x hx r hr
  rcases List.mem_append.mp hx with hx | hx
  · exact h x hx r hr
  · cases List.mem_singleton.mp hx
    exact hslot r hr

theorem Uses.update (h : g.Uses ready) (hne : ∀ x ∈ ready, x.1.session.clientId ≠ c)
    (slot : Option SlotRef) :
    Uses ready { g with uses := Function.update g.uses c slot } := by
  intro x hx r hr
  exact (Function.update_of_ne (hne x hx) _ _).trans (h x hx r hr)

end Ghost

/-- The cleanups of a thread belong to different clients. -/
theorem Local.distinct (h : Local cfg m g) :
    ((g.claims + g.cleared).map (·.session.clientId)).Nodup := by
  obtain ⟨_, hhist⟩ := h.registry
  rw [nodup_iff_count_le_one]
  intro c
  rw [count_map]
  refine (card_le_card (filter_le_filter _ h.claims)).trans ?_
  simpa only [eq_comm] using hhist.invariant.unfinished_le c

theorem Ghost.Batch.distinct (h : g.Batch rest ready) (hloc : Local cfg m g) :
    ((rest ++ ready.map (·.1)).map (·.session.clientId)).Nodup := by
  have hdist := hloc.distinct
  rwa [h.claims, h.cleared, coe_add, map_coe, coe_nodup] at hdist

theorem Local.mem_unfinished (h : Local cfg m g)
    (hmem : cleanup ∈ g.claims + g.cleared) : cleanup ∈ m.lifecycle.unfinished :=
  mem_coe.mp (mem_of_le h.claims hmem)

theorem walks_dropCleanups (hbat : g.Batch cleanups []) :
    Walks cfg (dropCleanups (A := A) cleanups) g fun _ g' => g'.Done := by
  induction cleanups generalizing g with
  | nil => exact .ret hbat.done
  | cons cleanup rest ih =>
    refine .update fun m _ => ⟨_, .dropClaim cleanup (by simp [hbat.claims]), ih ?_⟩
    exact { hbat with claims := by simp [hbat.claims] }

theorem walks_dropReference {slot : Option SlotRef} {k : Unit → ManagerM A α}
    (hheld : g.held = none) (hslot : ∀ r, slot = some r → r ∈ g.references)
    (hnone : slot = none → Walks cfg (k ()) g post)
    (hsome : ∀ r, slot = some r → Walks cfg (k ()) (g.forget r) post) :
    Walks cfg ((dropReference slot).bind k) g post := by
  cases slot with
  | none => exact hnone rfl
  | some r => exact walks_dropSlot (hslot r rfl) hheld (hsome r rfl)

/-- The slot of a claimed cleanup has no other session. -/
theorem Local.clearMountState {m' : ClientManager A} {cleanup : ClientCleanup} {r : SlotRef}
    {cleared : Bool} (hloc : Local cfg m g) (hmem : cleanup ∈ g.claims)
    (huses : g.uses cleanup.session.clientId = some r)
    (hclr : m.clearMountState cleanup.session r = some (cleared, m')) : cleared = true := by
  obtain ⟨_, hhist⟩ := hloc.registry
  obtain ⟨_, _, hent, hsess, -⟩ :=
    hhist.invariant.running (hloc.mem_unfinished (mem_add.mpr (.inl hmem)))
  rw [ClientManager.clearMountState] at hclr
  split at hclr
  · cases hclr
  split at hclr
  next current hcurr =>
    obtain ⟨_, hent', hsess'⟩ := hloc.bound _ _ current (hloc.uses _ _ huses).1 hcurr
    cases hent.symm.trans hent'
    rw [if_pos (hsess'.symm.trans hsess)] at hclr
    cases hclr
    rfl
  · cases hclr
    rfl

theorem walks_clearSlots {ready : List (ClientCleanup × Option SlotRef)}
    (hbat : g.Batch cleanups ready) (huses : g.Uses ready) :
    Walks cfg (clearSlots (A := A) cleanups ready) g fun result g' =>
      ∃ ready, result = .ok ready ∧ g'.Batch [] ready ∧ g'.Uses ready := by
  induction cleanups generalizing g ready with
  | nil => exact .ret ⟨ready, rfl, hbat, huses⟩
  | cons cleanup rest ih =>
    have hmem : cleanup ∈ g.claims := by simp [hbat.claims]
    rw [clearSlots]
    refine walks_onGraceful fun _ => walks_takeExistingSlot (fun m hslot => ?_) fun r hm => ?_
    · exact ⟨_, .pass hmem hslot, ih hbat.pass (huses.append nofun)⟩
    obtain ⟨_, hloc₀⟩ := hm
    have hne : ∀ x ∈ ready, x.1.session.clientId ≠ cleanup.session.clientId := by
      have hdist := hbat.distinct hloc₀
      simp only [List.cons_append, List.map_cons, List.nodup_cons, List.map_append, List.mem_append] at hdist
      intro x hx heq
      refine hdist.1 (.inr (heq ▸ ?_))
      exact List.mem_map_of_mem (List.mem_map_of_mem hx)
    refine .await fun m cleared m' hclr hloc => ?_
    obtain rfl := hloc.clearMountState hmem (g.uses_take _ r) hclr
    refine ⟨_, .clear hmem (g.uses_take _ r) hclr, ih hbat.clear ((huses.update hne _).append ?_)⟩
    rintro _ ⟨⟩
    exact g.uses_take _ r

theorem walks_pruneSlots (hbat : g.Batch [] all)
    (huses : g.Uses ready) (hdist : (ready.map (·.1.session.clientId)).Nodup) :
    Walks cfg (pruneSlots (A := A) ready) g fun _ g' => g'.Batch [] all := by
  induction ready generalizing g with
  | nil => exact .ret hbat
  | cons x rest ih =>
    obtain ⟨_, slot⟩ := x
    rw [List.map_cons, List.nodup_cons] at hdist
    have hrest : g.Uses rest := fun x hx => huses x (List.mem_cons_of_mem _ hx)
    cases slot with
    | none => exact ih hbat hrest hdist.2
    | some r =>
      refine walks_pruneUnusedSlot (huses _ List.mem_cons_self r rfl) hbat.held (ih hbat hrest hdist.2) ?_
      refine ih { hbat with } (hrest.update ?_ none) hdist.2
      rintro x hx heq
      exact hdist.1 (heq ▸ List.mem_map_of_mem hx)

theorem walks_finishCleanups (hbat : g.Batch [] ready) :
    Walks cfg (finishCleanups (A := A) ready completed) g fun result g' => (∃ n, result = .ok n) ∧
      g'.Done := by
  induction ready generalizing g completed with
  | nil => exact .ret ⟨⟨completed, rfl⟩, hbat.done⟩
  | cons x rest ih =>
    obtain ⟨cleanup, _⟩ := x
    have hmem : cleanup ∈ g.cleared := by simp [hbat.cleared]
    rw [finishCleanups]
    refine .update fun m hloc => ⟨_, .finish cleanup hmem hbat.role, ?_⟩
    obtain ⟨_, hhist⟩ := hloc.registry
    obtain ⟨hok, -, -⟩ := hhist.finish_ok (hloc.mem_unfinished (mem_add.mpr (.inr hmem)))
    dsimp only
    rw [hok]
    have hclrd : g.cleared.erase cleanup = (rest.map (·.1) : List ClientCleanup) := by
      rw [hbat.cleared, List.map_cons, ← cons_coe, erase_cons_head]
    refine walks_dropReference hbat.held ?_ ?_ ?_
    · rintro r rfl
      simp [hbat.references]
    · rintro rfl
      exact ih { hbat with cleared := hclrd }
    · rintro r rfl
      refine ih { hbat with cleared := hclrd, references := ?_ }
      change g.references.erase r = _
      rw [hbat.references]
      exact erase_cons_head r (rest.filterMap (·.2) : List SlotRef)

theorem walks_cleanupBatch (hbat : g.Batch cleanups []) :
    Walks cfg (cleanupBatch (A := A) cleanups) g fun result g' => (∃ report, result = .ok report) ∧
      g'.Done := by
  rw [cleanupBatch]
  refine seq (walks_clearSlots hbat nofun) ?_
  rintro result g' ⟨ready, rfl, hbat', huses⟩
  refine .pick fun revoked => .await fun m n m' hpool hloc => ?_
  obtain ⟨⟨_, _⟩, hinvd, hres⟩ := Option.map_eq_some_iff.mp hpool
  cases hres
  refine ⟨g', .invalidate hbat'.role (fun c hc => ?_) hinvd, ?_⟩
  · obtain ⟨x, hx, rfl⟩ := List.mem_map.mp hc
    exact ⟨x.1, by simpa [hbat'.cleared] using ⟨x.2, hx⟩, rfl⟩
  have hdist : (ready.map (·.1.session.clientId)).Nodup := by
    simpa [Function.comp_def] using hbat'.distinct hloc
  refine seq (walks_pruneSlots hbat' huses hdist) fun _ g'' hbat'' => ?_
  refine seq (walks_finishCleanups hbat'') ?_
  rintro result _ ⟨⟨_, rfl⟩, hdone⟩
  exact .ret ⟨⟨_, rfl⟩, hdone⟩

theorem Lifecycle.beginDrain_cases (l : Lifecycle) (session : ClientSession)
    (reason : CleanupReason) :
    (∃ err, l.beginDrain session
    reason = (.error err, ⟨(l.registry.beginDrain session reason).2, l.unfinished⟩)) ∨
      ∃ cleanup, l.beginDrain session reason =
        (.ok cleanup, ⟨(l.registry.beginDrain session reason).2, l.unfinished ++ cleanup.toList⟩) := by
  rw [Lifecycle.beginDrain]
  generalize l.registry.beginDrain session reason = result
  obtain ⟨answer, registry⟩ := result
  cases answer with
  | error err => exact .inl ⟨err, rfl⟩
  | ok cleanup => exact .inr ⟨cleanup, rfl⟩

theorem walks_beginDrains (hbat : g.Batch cleanups []) :
    Walks cfg (beginDrains (A := A) reason sessions cleanups) g fun result g' =>
      (∀ cleanups, result = .ok cleanups → g'.Batch cleanups []) ∧
        ∀ err, result = .error err → g'.Done ∧ ∃ source, err = .lifecycle source := by
  induction sessions generalizing g cleanups with
  | nil =>
    refine .ret ⟨?_, nofun⟩
    rintro cleanups ⟨⟩
    exact hbat
  | cons session rest ih =>
    rw [beginDrains]
    refine .update fun m _ => ?_
    dsimp only
    have hages := RegistryState.ages_beginDrain (r := m.lifecycle.registry) session reason
    have hstep := @Performs.beginDrain cfg m.lifecycle session reason
    rcases m.lifecycle.beginDrain_cases session reason with ⟨err, hdrain⟩ | ⟨cleanup, hdrain⟩
    · rw [hdrain] at hstep ⊢
      refine ⟨g, move_registry hstep hages rfl, ?_⟩
      refine seq (walks_dropCleanups hbat) fun _ g' hdone => .ret ⟨nofun, ?_⟩
      rintro _ ⟨⟩
      exact ⟨hdone, err, rfl⟩
    · rw [hdrain] at hstep ⊢
      refine ⟨_, .registry cleanup.toList hstep hages rfl, ih { hbat with claims := ?_ }⟩
      rw [hbat.claims, coe_add]

theorem walks_drainSessions (hbat : g.Batch [] []) :
    Walks cfg (drainSessions (A := A) sessions reason) g fun result g' =>
      g'.Done ∧ result ≠ .error .inconsistentSlot := by
  rw [drainSessions]
  refine seq (walks_beginDrains hbat) ?_
  rintro result g' ⟨hok, herro⟩
  cases result with
  | error err =>
    obtain ⟨hdone, _, rfl⟩ := herro err rfl
    exact .ret ⟨hdone, nofun⟩
  | ok cleanups =>
    refine (walks_cleanupBatch (hok cleanups rfl)).mono ?_
    rintro result _ ⟨⟨_, rfl⟩, hdone⟩
    exact ⟨hdone, nofun⟩

theorem walks_runCleanupStep (hbat : g.Batch [] []) :
    Walks cfg (runCleanupStep (A := A) cfg clientNow) g fun result g' =>
      g'.Done ∧ result ≠ .error .inconsistentSlot := by
  rw [runCleanupStep]
  refine .update fun m _ => ?_
  refine ⟨_, .registry _ (.claimDueCleanups clientNow cfg.cleanupScanBudget)
    (RegistryState.ages_claimDueCleanups cfg clientNow cfg.cleanupScanBudget) rfl, ?_⟩
  refine mono (walks_cleanupBatch ⟨hbat.role, hbat.references, hbat.held, ?_, hbat.cleared⟩) ?_
  · change g.claims + _ = _
    rw [hbat.claims, coe_nil, zero_add]
    rfl
  · rintro result _ ⟨⟨_, rfl⟩, hdone⟩
    exact ⟨hdone, nofun⟩

end Cakemaster.Client
