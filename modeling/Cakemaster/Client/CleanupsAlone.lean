import Cakemaster.Client.UnmountsAlone

/-!
# Calls that run alone: cleanups

A cleanup that runs alone clears the slots of its sessions, cancels their graceful unmounts,
invalidates the segments of their clients and removes the entries.
-/

namespace Cakemaster.Client

open Machine Machine.Prog Segment ClientManager Multiset List Function Ensures RegistryState
open Object (ClientSession)

variable {A : UnitAllocator} {cfg : ClientLifecycleConfig} {m m' : ClientManager A} {α : Type}
  {gs : ℕ → Ghost} {c : ClientId} {post : α → ClientManager A → Prop}
variable {ready : List (ClientCleanup × Option SlotRef)} {cleanups : List ClientCleanup}
  {events : List RegistryEvent}

/-! ### Slots -/

/-- The slots of the given sessions are cleared, and their graceful unmounts are cancelled. -/
structure ClearedAlone (sessions : List ClientSession) (m m' : ClientManager A) : Prop where
  lifecycle : m'.lifecycle = m.lifecycle
  pool : m'.pool = m.pool
  queue : m'.gracefulUnmounts = sessions.foldl (fun queue session => queue.cancelSession session)
    m.gracefulUnmounts
  map : SlotMap m'
  mountState : m'.mountState = fun c =>
    if c ∈ sessions.map (·.clientId) then .default else m.mountState c

theorem ClearedAlone.cons (hlif : m₁.lifecycle = m.lifecycle) (hpool : m₁.pool = m.pool)
    (hque : m₁.gracefulUnmounts = m.gracefulUnmounts.cancelSession session)
    (hview : m₁.mountState = update m.mountState session.clientId .default)
    (h : ClearedAlone sessions m₁ m₂) : ClearedAlone (session :: sessions) m m₂ where
  lifecycle := h.lifecycle.trans hlif
  pool := h.pool.trans hpool
  queue := by rw [h.queue, hque, List.foldl_cons]
  map := h.map
  mountState := by
    rw [h.mountState, hview]
    funext c
    by_cases hc : c = session.clientId
    · simp [hc]
    · simp [hc]

section

variable (h : SlotMap m)
include h

theorem ensures_clearSlots
    (hsss : ∀ cleanup ∈ cleanups, ∀ session, (m.mountState cleanup.session.clientId).session = some session →
      session = cleanup.session) :
    Ensures (clearSlots cleanups ready) m fun result m' => ∃ ready', result = .ok ready' ∧
      ready'.map Prod.fst = ready.map Prod.fst ++ cleanups ∧
      ClearedAlone (cleanups.map (·.session)) m m' := by
  induction cleanups generalizing m ready with
  | nil =>
    rw [clearSlots]
    exact .ret ⟨ready, rfl, by simp, rfl, rfl, rfl, h, by simp⟩
  | cons cleanup rest ih =>
    obtain ⟨hsess, hsss⟩ := forall_mem_cons.mp hsss
    rw [clearSlots]
    -- the rest of the loop, from a manager whose slot is cleared
    have hrest : ∀ {m₁ : ClientManager A} {slot : Option SlotRef}, SlotMap m₁ → m₁.lifecycle = m.lifecycle →
        m₁.pool = m.pool → m₁.gracefulUnmounts = m.gracefulUnmounts.cancelSession cleanup.session →
        m₁.mountState = update m.mountState cleanup.session.clientId .default → Ensures (clearSlots
        rest (ready ++ [(cleanup, slot)])) m₁ fun result m' => ∃ ready', result = .ok ready' ∧
          ready'.map Prod.fst = ready.map Prod.fst ++ cleanup :: rest ∧
            ClearedAlone ((cleanup :: rest).map (·.session)) m m' := by
      intro m₁ slot hmap hlif hpool hque hview
      refine (ih hmap ?_).mono ?_
      · intro cleanup' hmem session hs
        rw [hview] at hs
        by_cases hc : cleanup'.session.clientId = cleanup.session.clientId
        · rw [hc, update_self] at hs
          cases hs
        · rw [update_of_ne hc] at hs
          exact hsss cleanup' hmem session hs
      · rintro result m' ⟨ready', hres, hrdy, hclrd⟩
        exact ⟨ready', hres, by simpa using hrdy, .cons hlif hpool hque hview hclrd⟩
    refine ensures_onGraceful ?_
    have hmap : SlotMap
      ({ m with gracefulUnmounts := m.gracefulUnmounts.cancelSession cleanup.session } : ClientManager A) :=
      ⟨h.injective, h.old, h.empty⟩
    refine ensures_takeExistingSlot hmap (fun hnone => ?_) fun r m₁ hlike _ hslot => ?_
    · refine hrest hmap rfl rfl rfl ?_
      have hemp : m.mountState cleanup.session.clientId = .default := mountState_none hnone
      rw [← hemp, update_eq_self]
      rfl
    refine await_iff.mpr fun cleared m₂ hclr => ?_
    have hview₁ : m₁.mountState = m.mountState := hlike.mountState
    have hst : m.mountState cleanup.session.clientId = (m₁.cells r).mountState := by
      rw [← hview₁, mountState_some hslot]
    rw [clearMountState] at hclr
    split at hclr
    · cases hclr
    split at hclr
    next current hcurr =>
      rw [hsess current (by rw [hst, hcurr]), if_pos rfl] at hclr
      cases hclr
      refine hrest (hlike.map.modifyCell fun _ => rfl) hlike.lifecycle hlike.pool hlike.gracefulUnmounts ?_
      rw [hlike.map.mountState_modifyCell hslot, hview₁]
    next hnone =>
    cases hclr
    refine hrest hlike.map hlike.lifecycle hlike.pool hlike.gracefulUnmounts ?_
    have hemp : m.mountState cleanup.session.clientId = .default :=
      h.mountState_empty (by rw [hst, hnone])
    rw [← hemp, update_eq_self, hview₁]

theorem ensures_pruneSlots : Ensures (pruneSlots ready) m fun _ m' => Alike m m' := by
  induction ready generalizing m with
  | nil => exact .ret ⟨⟨rfl, rfl, rfl, rfl⟩, h, rfl⟩
  | cons x rest ih =>
    obtain ⟨_, slot⟩ := x
    cases slot with
    | none => exact ih h
    | some r =>
      refine ensures_pruneUnusedSlot h fun m₁ hlike => ?_
      exact (ih hlike.map).mono fun _ m' hlike' => hlike.trans hlike'

theorem ensures_dropReference {slot : Option SlotRef} {k : Unit → ManagerM A α}
    (hk : ∀ m₁, Alike m m₁ → Ensures (k ()) m₁ post) :
    Ensures ((dropReference slot).bind k) m post := by
  cases slot with
  | none => exact hk m ⟨⟨rfl, rfl, rfl, rfl⟩, h, rfl⟩
  | some r => exact ensures_dropSlot h fun m₁ hlike _ => hk m₁ hlike

theorem ensures_finishCleanups (hhist : History cfg events m.lifecycle)
    (hrdy : (ready.map Prod.fst : Multiset ClientCleanup) ≤ m.lifecycle.unfinished) :
    Ensures (finishCleanups ready completed) m fun result m' => (∃ n, result = .ok n) ∧
      (m'.lifecycle.entry = fun c => if c ∈ ready.map (·.1.session.clientId) then none else
      m.lifecycle.entry c) ∧
        m'.pool = m.pool ∧ m'.gracefulUnmounts = m.gracefulUnmounts ∧ m'.mountState = m.mountState := by
  induction ready generalizing m completed events with
  | nil =>
    rw [finishCleanups]
    exact .ret ⟨⟨completed, rfl⟩, by simp, rfl, rfl, rfl⟩
  | cons x rest ih =>
    obtain ⟨cleanup, _⟩ := x
    rw [finishCleanups]
    have hmem : cleanup ∈ m.lifecycle.unfinished := mem_coe.mp (mem_of_le hrdy (by simp))
    obtain ⟨hok, hunf, hents⟩ := hhist.finish_ok hmem
    refine .update ?_
    have hmap : SlotMap ({ m with lifecycle := (m.lifecycle.finish cleanup).2 } : ClientManager A) :=
      ⟨h.injective, h.old, h.empty⟩
    refine ensures_dropReference hmap fun m₁ hlike => ?_
    rw [hok]
    have hrdy₁ : (rest.map Prod.fst : Multiset ClientCleanup) ≤ m₁.lifecycle.unfinished := by
      rw [hlike.lifecycle, show (m.lifecycle.finish cleanup).2.unfinished = _ from hunf, ← coe_erase]
      have herase := erase_le_erase cleanup hrdy
      simpa using herase
    have hhist₁ : History cfg (events ++ [.finish cleanup (m.lifecycle.finish cleanup).1]) m₁.lifecycle := by
      rw [hlike.lifecycle]
      exact hhist.step (.finish cleanup hmem)
    refine (ih hlike.map hhist₁ hrdy₁).mono ?_
    rintro result m' ⟨hres, hent, hpool, hque, hview⟩
    refine ⟨hres, ?_, hpool.trans hlike.pool, hque.trans hlike.gracefulUnmounts, hview.trans hlike.mountState⟩
    rw [hent, hlike.lifecycle]
    funext c
    by_cases hc : c = cleanup.session.clientId
    · simp [hc, hents]
    · rw [List.map_cons]
      simp only [List.mem_cons, hc, false_or, hents, if_false]

/-- The segments, the slots and the entries of the sessions are gone. -/
theorem ensures_cleanupBatch (hpool : ∃ held, PoolInvariant m.pool held)
    (hhist : History cfg events m.lifecycle) (hbd : ∀ c session,
      (m.mountState c).session = some session → ∃ e, m.lifecycle.entry c = some e ∧ e.session = session)
    (hcls : (cleanups : Multiset ClientCleanup) ≤ m.lifecycle.unfinished)
    (hclients : ∀ cleanup ∈ cleanups, cleanup.session.clientId ∈ clients) :
    Ensures (cleanupBatch cleanups) m fun _ m' => m.ledger.Turn (.serve clients) m'.ledger := by
  have hrng : ∀ cleanup ∈ cleanups, ∃ e, m.lifecycle.entry cleanup.session.clientId = some e ∧
      e.session = cleanup.session := by
    intro cleanup hmem
    obtain ⟨e, _, hent, hsess, -⟩ := hhist.invariant.running
      (mem_coe.mp (mem_of_le hcls (mem_coe.mpr hmem)))
    exact ⟨e, hent, hsess⟩
  rw [cleanupBatch]
  refine seq (ensures_clearSlots h ?_) ?_
  · intro cleanup hmem session hsess
    obtain ⟨e, hent, rfl⟩ := hbd _ _ hsess
    obtain ⟨_, hent', hsess'⟩ := hrng cleanup hmem
    cases hent.symm.trans hent'
    exact hsess'
  rintro result m₁ ⟨ready, rfl, hrdy, hclrd⟩
  rw [map_nil, nil_append] at hrdy
  have howrs : ready.map (·.1.session.clientId) = (cleanups.map (·.session)).map (·.clientId) := by
    rw [← hrdy, List.map_map, List.map_map]
    rfl
  refine pick_iff.mpr fun revoked => ?_
  obtain ⟨held, _⟩ := hpool
  have hp₁ : PoolInvariant m₁.pool held := by rwa [hclrd.pool]
  obtain ⟨_, pool, hrun, -, hkp, hmt⟩ := invalidating hp₁ (ready.map (·.1.session.clientId))
  refine await_iff.mpr fun invalidated m₂ hinvd => ?_
  simp only [hrun, Option.map_some, Option.some.injEq, Prod.mk.injEq] at hinvd
  obtain ⟨rfl, rfl⟩ := hinvd
  have hmap₂ : SlotMap ({ m₁ with pool } : ClientManager A) :=
    ⟨hclrd.map.injective, hclrd.map.old, hclrd.map.empty⟩
  refine (ensures_pruneSlots hmap₂).seq fun _ m₃ hlike => ?_
  have hlif₃ : m₃.lifecycle = m.lifecycle := hlike.lifecycle.trans hclrd.lifecycle
  refine (ensures_finishCleanups hlike.map (hlif₃ ▸ hhist) (by rwa [hrdy, hlif₃])).seq ?_
  rintro result m₄ ⟨⟨_, rfl⟩, hent, hpool₄, hque₄, hview₄⟩
  refine .ret ?_
  have hldg : m₄.ledger = { m.ledger with
      entry := fun c => if c ∈ (cleanups.map (·.session)).map (·.clientId) then none else m.lifecycle.entry c
      slot := fun c => if c ∈ (cleanups.map (·.session)).map (·.clientId) then .default else m.mountState c
      mount := fun id => (m.pool.mount id).filter fun k => k.owner ∉ (cleanups.map (·.session)).map (·.clientId)
      queue := (cleanups.map (·.session)).foldl (fun queue session => queue.cancelSession session)
          m.gracefulUnmounts } := by
    rw [← howrs]
    refine Ledger.ext ?_ ?_ ?_ ?_ ?_ ?_
    · rw [← hlif₃]
      exact hent
    · exact hview₄.trans (hlike.mountState.trans (howrs ▸ hclrd.mountState))
    · show m₄.pool.mount = _
      rw [hpool₄, hlike.pool, hmt, hclrd.pool]
    · show m₄.pool.poolId = m.pool.poolId
      rw [hpool₄, hlike.pool, hkp.poolId, hclrd.pool]
    · show m₄.pool.entries.length = m.pool.entries.length
      rw [hpool₄, hlike.pool, hkp.entries, hclrd.pool]
    · exact hque₄.trans (hlike.gracefulUnmounts.trans hclrd.queue)
  rw [hldg]
  refine .clean (b := m.ledger) (cleanups.map (·.session)) (fun session hmem => ?_)
    fun session hmem => ?_
  · obtain ⟨cleanup, hcleanup, rfl⟩ := mem_map.mp hmem
    exact hrng cleanup hcleanup
  · obtain ⟨cleanup, hcleanup, rfl⟩ := mem_map.mp hmem
    exact hclients cleanup hcleanup

end

/-! ### Claims -/

theorem ensures_dropCleanups (cleanups : List ClientCleanup) :
    Ensures (dropCleanups cleanups) m fun _ m' =>
    ∃ lifecycle, m' = { m with lifecycle } ∧ m.lifecycle.registry.Ages lifecycle.registry := by
  induction cleanups generalizing m with
  | nil => exact .ret ⟨_, rfl, .refl⟩
  | cons cleanup rest ih =>
    refine .update ((ih (m := { m with lifecycle := m.lifecycle.drop cleanup })).mono ?_)
    rintro _ m' ⟨lifecycle, rfl, hages⟩
    have hrls := ages_releaseCleanup (r := m.lifecycle.registry) cleanup.session
    exact ⟨lifecycle, rfl, hrls.trans hages⟩

theorem Lifecycle.beginDrain_session {l : Lifecycle}
    {cleanup : ClientCleanup} (hans : (l.beginDrain session reason).1 = .ok answer)
    (hcleanup : answer = some cleanup) : cleanup.session = session := by
  have hdrains := l.registry.drains session reason
  have hres : (l.registry.beginDrain session reason).1 = .ok answer := by
    rcases l.beginDrain_cases session reason with ⟨_, hdrain⟩ | ⟨_, hdrain⟩
    · rw [hdrain] at hans
      cases hans
    · rw [Lifecycle.beginDrain] at hans
      split at hans <;> simp_all
  subst hcleanup
  rw [hres] at hdrains
  generalize (l.registry.beginDrain session reason).2 = registry at hdrains
  cases hdrains with
  | fence | claim => rfl

theorem ensures_beginDrains {reason : CleanupReason} {sessions : List ClientSession}
    (hhist : History cfg events m.lifecycle)
    (hcls : (cleanups : Multiset ClientCleanup) ≤ m.lifecycle.unfinished) :
    Ensures (beginDrains reason sessions cleanups) m fun result m' =>
    ∃ lifecycle, m' = { m with lifecycle } ∧
      m.lifecycle.registry.Ages lifecycle.registry ∧ ∀ drained, result = .ok drained →
        (∃ events, History cfg events lifecycle) ∧ (drained : Multiset ClientCleanup) ≤ lifecycle.unfinished ∧
          ∀ cleanup ∈ drained, cleanup ∈ cleanups ∨ cleanup.session ∈ sessions := by
  induction sessions generalizing m cleanups events with
  | nil =>
    refine .ret ⟨m.lifecycle, rfl, .refl, ?_⟩
    rintro drained ⟨⟩
    exact ⟨⟨events, hhist⟩, hcls, fun cleanup hmem => .inl hmem⟩
  | cons session rest ih =>
    rw [beginDrains]
    refine .update ?_
    dsimp only
    have hages := ages_beginDrain (r := m.lifecycle.registry) session reason
    have hstep := @Performs.beginDrain cfg m.lifecycle session reason
    rcases m.lifecycle.beginDrain_cases session reason with ⟨_, hdrain⟩ | ⟨cleanup, hdrain⟩
    · rw [hdrain]
      refine (ensures_dropCleanups cleanups).seq ?_
      rintro _ m' ⟨lifecycle, rfl, hages'⟩
      exact .ret ⟨lifecycle, rfl, hages.trans hages', (by simp)⟩
    rw [hdrain] at hstep ⊢
    refine (ih (m := { m with lifecycle := _ }) (hhist.step hstep) ?_).mono ?_
    · rw [← coe_add, ← coe_add]
      exact add_le_add_left hcls _
    rintro result m' ⟨lifecycle, rfl, hages', hres⟩
    refine ⟨lifecycle, rfl, hages.trans hages', fun drained hdrn => ?_⟩
    obtain ⟨hhist', hunf, hfrom⟩ := hres drained hdrn
    refine ⟨hhist', hunf, fun drained' hmem => ?_⟩
    rcases hfrom drained' hmem with hmem' | hmem'
    · rcases mem_append.mp hmem' with hbef | hnew
      · exact .inl hbef
      · have hsess := Lifecycle.beginDrain_session (congrArg Prod.fst hdrain) (Option.mem_toList.mp hnew)
        exact .inr (hsess ▸ mem_cons_self)
    · exact .inr (mem_cons_of_mem _ hmem')

variable (h : Coherent cfg m gs)
include h

/-- Cleanups that have just been claimed, by a manager that was coherent before. -/
theorem ensures_claimed {lifecycle : Lifecycle}
    (hages : m.lifecycle.registry.Ages lifecycle.registry) (hhist : History cfg events lifecycle)
    (hcls : (cleanups : Multiset ClientCleanup) ≤ lifecycle.unfinished)
    (hclients : ∀ cleanup ∈ cleanups, cleanup.session.clientId ∈ clients) :
    Ensures (cleanupBatch cleanups) { m with lifecycle } fun _ m' =>
    Ledger.Turns (· = .serve clients) m.ledger m'.ledger := by
  have hage : m.ledger.Turn (.serve clients) ({ m with lifecycle } : ClientManager A).ledger :=
    .age (b := m.ledger) _ _ _ (fun c => hages.aged c) le_rfl
  have hmap : SlotMap ({ m with lifecycle } : ClientManager A) :=
    ⟨h.slotMap.injective, h.slotMap.old, h.slotMap.empty⟩
  refine (ensures_cleanupBatch hmap h.pool hhist ?_ hcls hclients).mono fun _ m' hturn => ?_
  · intro c session hsess
    have hsess' : (m.mountState c).session = some session := hsess
    cases hslot : m.slots.lookup c with
    | none =>
      rw [mountState_none hslot] at hsess'
      cases hsess'
    | some r =>
      rw [mountState_some hslot] at hsess'
      obtain ⟨e, he, rfl⟩ := h.bound c r session hslot hsess'
      obtain ⟨e', he', hsame, -⟩ := hages.present c e he
      exact ⟨e', he', hsame⟩
  · exact .head ⟨_, rfl, hage⟩ (.single ⟨_, rfl, hturn⟩)

theorem ensures_drainSessions (sessions : List ClientSession) (reason : CleanupReason) :
    Ensures (drainSessions sessions reason) m
      fun _ m' => Ledger.Turns (· = .serve (sessions.map (·.clientId))) m.ledger m'.ledger := by
  obtain ⟨_, hhist, -⟩ := h.registry
  rw [drainSessions]
  refine seq (ensures_beginDrains hhist (zero_le _)) ?_
  rintro result _ ⟨_, rfl, hages, hres⟩
  cases result with
  | error err =>
    exact .ret (.single (.age (b := m.ledger) _ _ _ (fun c => hages.aged c) le_rfl) rfl)
  | ok cleanups =>
    obtain ⟨⟨_, hhist'⟩, hcls, hfrom⟩ := hres cleanups rfl
    refine ensures_claimed h hages hhist' hcls fun cleanup hmem => ?_
    rcases hfrom cleanup hmem with hnew | hsess
    · cases hnew
    · exact mem_map_of_mem hsess

theorem ensures_runCleanupStep (clientNow : ClientTick) :
    Ensures (runCleanupStep cfg clientNow) m fun _ m' => Ledger.Turns
      (· = .serve ((m.lifecycle.claimDueCleanups cfg clientNow cfg.cleanupScanBudget).1.map
      (·.session.clientId))) m.ledger m'.ledger := by
  obtain ⟨_, hhist, -⟩ := h.registry
  rw [runCleanupStep]
  refine .update ?_
  refine ensures_claimed h (ages_claimDueCleanups cfg clientNow cfg.cleanupScanBudget)
    (hhist.step (.claimDueCleanups clientNow cfg.cleanupScanBudget)) ?_ fun cleanup hmem =>
    mem_map_of_mem hmem
  have hnew := le_add_left
    ((m.lifecycle.claimDueCleanups cfg clientNow cfg.cleanupScanBudget).1 : Multiset ClientCleanup)
    m.lifecycle.unfinished
  rwa [coe_add] at hnew

end Cakemaster.Client
