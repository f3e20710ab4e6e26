import Cakemaster.Client.SlotMoves

/-!
# The calls of the manager make these moves

Each program of the manager is followed from its start, with what the thread has in hand
after every action.
-/

namespace Cakemaster.Client

open Machine Machine.Prog Segment Walks Option
open Object (ClientSession)

variable {A : UnitAllocator} {cfg : ClientLifecycleConfig} {α : Type} {g : Ghost}
  {post : α → Ghost → Prop} {request : List SegmentSpec} {now : ClientTick} {m : ClientManager A}

namespace Ghost

variable {β : Type} {k : Except SegmentStateError Unit → ManagerM A α}

def holding (h : Held) (g : Ghost) : Ghost := { g with held := some h }

end Ghost

/-! ### Single actions -/

section Actions

variable {c : ClientId} {r : SlotRef} {h : Held} {k : β → ManagerM A α}

theorem walks_onGraceful {f : GracefulUnmountQueue → β × GracefulUnmountQueue}
    (hk : ∀ b, Walks cfg (k b) g post) :
    Walks cfg ((onGraceful f).bind k) g post := by
  apply Walks.await
  intro m b m' hf _
  split at hf
  · cases hf
  · cases hf
    exact ⟨g, .queue _ _, hk _⟩

theorem walks_readRegistry
    (hk : ∀ m : ClientManager A, Local cfg m g → Walks cfg (k (f m.lifecycle.registry)) g post) :
    Walks cfg ((readRegistry f).bind k) g post := by
  apply Walks.read
  exact fun m hloc => ⟨g, .look, hk m hloc⟩

theorem walks_readPool {f : SegmentPool A → β}
    (hk : ∀ b, Walks cfg (k b) g post) : Walks cfg ((readPool f).bind k) g post := by
  apply Walks.read
  exact fun m _ => ⟨g, .look, hk _⟩

theorem walks_takeSlot {k : SlotRef → ManagerM A α} (hk : ∀ r, Walks cfg (k r) (g.take c r) post) :
    Walks cfg ((takeSlot c).bind k) g post := by
  apply Walks.update
  intro m _
  rw [ClientManager.slot]
  split
  next r hslot => exact ⟨_, .take hslot, hk r⟩
  next hslot => exact ⟨_, .make hslot, hk _⟩

theorem walks_takeExistingSlot {k : Option SlotRef → ManagerM A α}
    (hnone : ∀ m : ClientManager A, m.slots.lookup c = none → ∃ g', Move cfg m g m g' ∧
    Walks cfg (k none) g' post) (hsome : ∀ r, (∃ m : ClientManager A, Local cfg m g) →
    Walks cfg (k (some r)) (g.take c r) post) :
    Walks cfg ((takeExistingSlot c).bind k) g post := by
  apply Walks.update
  intro m hloc
  rw [ClientManager.existingSlot]
  split
  next r hslot => exact ⟨_, .take hslot, hsome r ⟨m, hloc⟩⟩
  next hslot => exact hnone m hslot

theorem walks_lockSlot {k : ClientMountState → ManagerM A α} (huses : g.uses c = some r)
    (hheld : g.held = none)
    (hk : ∀ state, Walks cfg (k state) (g.holding (.enter c r state)) post) :
    Walks cfg ((lockSlot r).bind k) g post := by
  apply Walks.await
  intro m state m' hlock _
  rw [ClientManager.lockMountState] at hlock
  split at hlock
  · cases hlock
  next hfree =>
  cases hlock
  exact ⟨_, .lock huses hheld (Bool.not_eq_true _ ▸ hfree), hk _⟩

variable {k : Unit → ManagerM A α}

theorem walks_unlockSlot {state : ClientMountState} (hheld : g.held = some h)
    (hslot : h.slot = r) (hst : h.MayLeave state)
    (hk : Walks cfg (k ()) { g with held := none } post) :
    Walks cfg ((unlockSlot r state).bind k) g post := by
  subst hslot
  apply Walks.modify
  exact fun m _ => ⟨_, .unlock state hheld hst, hk⟩

theorem walks_pruneUnusedSlot (huses : g.uses c = some r) (hheld : g.held = none)
    (hbd : Walks cfg (k ()) g post)
    (hpruned : Walks cfg (k ()) { g with uses := Function.update g.uses c none } post) :
    Walks cfg ((pruneUnusedSlot c r).bind k) g post := by
  rw [pruneUnusedSlot, Prog.bind_eq, Prog.bind_assoc]
  apply Walks.await
  intro m bound m' hchk _
  rw [ClientManager.isBound] at hchk
  split at hchk
  · cases hchk
  cases hchk
  refine ⟨g, .look, ?_⟩
  split
  · exact hbd
  · apply Walks.modify
    exact fun m _ => ⟨_, .prune huses hheld, hpruned⟩

theorem walks_dropSlot (hmem : r ∈ g.references) (hheld : g.held = none)
    (hk : Walks cfg (k ()) (g.forget r) post) : Walks cfg ((dropSlot r).bind k) g post := by
  apply Walks.modify
  exact fun m _ => ⟨_, .release hmem hheld, hk⟩

end Actions

/-! ### Under the lock of a mount state -/

namespace Held

structure Follows (h h' : Held) : Prop where
  client : h'.client = h.client
  slot : h'.slot = h.slot
  state : h'.state = h.state

theorem Follows.refl (h : Held) : h.Follows h := ⟨rfl, rfl, rfl⟩

def forgetSegments (h : Held) : Held := { h with mounted := [], accepting := [] }

/-- The slot as it was, with what is still known of the segments. -/
def Rolled (h h' : Held) : Prop := h' = h ∨ h' = h.forgetSegments

end Held

section Locked

variable {c : ClientId} {h : Held} {id : SegmentId}

theorem walks_quiesce (hcl : h.client = c) (heng : h.Engaged) (hcau : h.MayDetach g.role id)
    (hk : ∀ result h', h.Rolled h' → Walks cfg (k result) (g.holding h') post) :
    Walks cfg ((onPool (·.quiesce c id)).bind k) (g.holding h) post := by
  apply Walks.update
  intro m hloc
  obtain ⟨leases, hp⟩ := hloc.pool
  obtain ⟨-, -, hchange⟩ := quiescing hp c id
  subst hcl
  generalize hres : (m.pool.quiesce h.client id).1 = result at hchange ⊢
  generalize hmt' : (m.pool.quiesce h.client id).2.mount = mount' at hchange
  cases hchange with
  | refuse err =>
    refine ⟨g.holding h, ?_, hk _ h (.inl rfl)⟩
    rw [show (m.pool.quiesce h.client id).2 = m.pool from updateDirectCatalog_error hres]
    exact .look
  | change old hmt hownr =>
    exact ⟨g.holding h.forgetSegments, .detach _ rfl heng hmt hownr (.inr rfl)
      (fun leases hp => (quiescing hp h.client id).1) hmt' hcau, hk _ _ (.inr rfl)⟩

theorem walks_remove (hcl : h.client = c) (heng : h.Engaged) (hcau : h.MayDetach g.role id)
    (hk : ∀ result h', h.Rolled h' → Walks cfg (k result) (g.holding h') post) :
    Walks cfg ((onPool (·.remove c id)).bind k) (g.holding h) post := by
  apply Walks.update
  intro m hloc
  obtain ⟨leases, hp⟩ := hloc.pool
  obtain ⟨-, -, hremove⟩ := removing hp c id
  subst hcl
  generalize hres : (m.pool.remove h.client id).1 = result at hremove ⊢
  generalize hmt' : (m.pool.remove h.client id).2.mount = mount' at hremove
  cases hremove with
  | refuse err =>
    refine ⟨g.holding h, ?_, hk _ h (.inl rfl)⟩
    rw [show (m.pool.remove h.client id).2 = m.pool from remove_error hres]
    exact .look
  | remove old hmt hownr =>
    exact ⟨g.holding h.forgetSegments, .detach _ rfl heng hmt hownr (.inl rfl)
      (fun leases hp => (removing hp h.client id).1) hmt' hcau, hk _ _ (.inr rfl)⟩

theorem Held.Rolled.trans (hrol : h.Rolled h') (hrol' : h'.Rolled h'') : h.Rolled h'' := by
  rcases hrol' with rfl | rfl
  · exact hrol
  · rcases hrol with rfl | rfl <;> exact .inr rfl

theorem Held.Rolled.elim {motive : Held → Prop} (hrol : h.Rolled h') (hsame : motive h)
    (hforget : motive h.forgetSegments) : motive h' := by
  rcases hrol with rfl | rfl
  · exact hsame
  · exact hforget

theorem walks_rollback (hcl : h.client = c) (heng : h.Engaged)
    (hcau : ∀ id ∈ attached ++ reactivated, h.MayDetach g.role id) :
    Walks cfg (rollback (A := A) c attached reactivated) (g.holding h)
      fun _ g' => ∃ h', h.Rolled h' ∧ g' = g.holding h' := by
  have hqui : ∀ {β : Type} {k : Except SegmentStateError Unit → ManagerM A β}
      {post : β → Ghost → Prop} {id : SegmentId} {h' : Held}, h.MayDetach g.role id → h.Rolled h' →
      (∀ result h'', h.Rolled h'' → Walks cfg (k result) (g.holding h'') post) →
      Walks cfg ((onPool (·.quiesce c id)).bind k) (g.holding h') post := by
    intro β k post id h' hid hrol hk
    have hstep := fun h' (hcl : h'.client = c) (heng : h'.Engaged) (hid : h'.MayDetach g.role id)
      (hrol : h.Rolled h') => walks_quiesce hcl heng hid fun result h'' hh =>
      hk result h'' (hrol.trans hh)
    exact hrol.elim (motive := fun h' => Walks cfg ((onPool (·.quiesce c id)).bind k) (g.holding h')
      post) (hstep h hcl heng hid (.inl rfl)) (hstep h.forgetSegments hcl heng hid (.inr rfl))
  have hremove : ∀ {β : Type} {k : Except SegmentStateError Unit → ManagerM A β}
      {post : β → Ghost → Prop} {id : SegmentId} {h' : Held}, h.MayDetach g.role id → h.Rolled h' →
      (∀ result h'', h.Rolled h'' → Walks cfg (k result) (g.holding h'') post) →
      Walks cfg ((onPool (·.remove c id)).bind k) (g.holding h') post := by
    intro β k post id h' hid hrol hk
    have hstep := fun h' (hcl : h'.client = c) (heng : h'.Engaged) (hid : h'.MayDetach g.role id)
      (hrol : h.Rolled h') => walks_remove hcl heng hid fun result h'' hh =>
      hk result h'' (hrol.trans hh)
    exact hrol.elim (motive := fun h' => Walks cfg ((onPool (·.remove c id)).bind k) (g.holding h')
      post) (hstep h hcl heng hid (.inl rfl)) (hstep h.forgetSegments hcl heng hid (.inr rfl))
  -- the invariant of both loops
  let inv : List SegmentId → Option ClientManagerError → Ghost → Prop := fun rest _ g' =>
    (∀ id ∈ rest, h.MayDetach g.role id) ∧ ∃ h', h.Rolled h' ∧ g' = g.holding h'
  rw [rollback]
  refine seq (.foldOver inv ⟨fun id hid => hcau id (by simp_all), h, .inl rfl, rfl⟩ ?_) ?_
  · rintro id rest firstError g' ⟨hrest, h', hrol, rfl⟩
    refine hqui (hrest id List.mem_cons_self) hrol fun result h'' hrol' => ?_
    have hinv : inv rest none (g.holding h'') :=
      ⟨fun id hid => hrest id (List.mem_cons_of_mem _ hid), h'', hrol', rfl⟩
    cases result <;> exact .ret hinv
  rintro firstError g' ⟨-, h', hrol, rfl⟩
  refine seq (.foldOver inv ⟨fun id hid => hcau id (by simp_all), h', hrol, rfl⟩ ?_) ?_
  · rintro id rest firstError g' ⟨hrest, h', hrol, rfl⟩
    have hinv : ∀ h'', h.Rolled h'' → inv rest none (g.holding h'') := fun h'' hrol =>
      ⟨fun id hid => hrest id (List.mem_cons_of_mem _ hid), h'', hrol, rfl⟩
    refine hqui (hrest id List.mem_cons_self) hrol fun result h'' hrol' => ?_
    cases result with
    | error source => exact .ret (hinv _ hrol')
    | ok =>
      refine hremove (hrest id List.mem_cons_self) hrol' fun result h'' hrol' => ?_
      cases result <;> exact .ret (hinv _ hrol')
  · rintro firstError g' ⟨-, h', hrol, rfl⟩
    cases firstError <;> exact .ret ⟨h', hrol, rfl⟩

theorem walks_failWith {attached reactivated : List SegmentId} {err : ClientManagerError}
    (hcl : h.client = c)
    (heng : h.Engaged) (hcau : ∀ id ∈ attached ++ reactivated, h.MayDetach g.role id)
    {k : ClientManagerError → ManagerM A α}
    (hk : ∀ err h', h.Rolled h' → Walks cfg (k err) (g.holding h') post) :
    Walks cfg ((failWith c attached reactivated err).bind k) (g.holding h) post := by
  rw [failWith, Prog.bind_eq, Prog.bind_assoc]
  refine seq (walks_rollback hcl heng hcau) ?_
  rintro result _ ⟨h', hrol, rfl⟩
  cases result <;> exact hk _ h' hrol

def Held.attach (spec : SegmentSpec) (outcome : AttachOutcome) (h : Held) : Held :=
  { h with
    mounted := (spec, outcome.segment.entry) :: h.mounted
    fresh := if outcome.isNew then spec.identity.id :: h.fresh else h.fresh }

theorem walks_attachQuiesced {spec : SegmentSpec} {early : Bool}
    {k : Except AttachError (AttachOutcome × SegmentId) → ManagerM A α} (heng : h.Engaged)
    (hph : h.phase = .absent ∨ h.phase = .entered)
    (hrole : g.role = .mounting h.client request early)
    (herro : ∀ err, Walks cfg (k (.error err)) (g.holding h) post) (hok : ∀ outcome,
    Walks cfg (k (.ok (outcome, spec.identity.id))) (g.holding (h.attach spec outcome)) post) :
    Walks cfg ((attachQuiesced spec).bind k) (g.holding h) post := by
  apply Walks.await
  intro m answer m' hrun hloc
  obtain ⟨_, hp⟩ := hloc.pool
  obtain ⟨result, pool, hatt, _, -, heffc⟩ := attaching hp spec
  simp only [hatt, map_some, some.injEq, Prod.mk.injEq] at hrun
  obtain ⟨rfl, rfl⟩ := hrun
  cases result with
  | error err =>
    refine ⟨g.holding h, ?_, herro err⟩
    rw [attachQuiesced_error hatt]
    exact .look
  | ok outcome =>
    obtain ⟨_, hmt, hspec, hent⟩ := heffc.mounted
    have hid : pool.idAt outcome.segment.entry = spec.identity.id := by rw [← hent, idAt_mount hmt, hspec]
    refine ⟨g.holding (h.attach spec outcome), .attach rfl heng hph hrole hatt, ?_⟩
    have hwalk := hok outcome
    rw [← hid] at hwalk
    exact hwalk

theorem walks_segmentState {k : SegmentState → ManagerM A α}
    (hmem : (spec, handle.entry) ∈ h.mounted) (hsee : Walks cfg (k .accepting)
    (g.holding { h with accepting := (spec, handle.entry) :: h.accepting }) post)
    (hoth : ∀ (m : ClientManager A) state, Local cfg m (g.holding h) → m.pool.stateAt handle = some state →
      state ≠ .accepting → Walks cfg (k state) (g.holding h) post) :
    Walks cfg ((segmentState handle).bind k) (g.holding h) post := by
  apply Walks.await
  intro m state m' hrun hloc
  obtain ⟨⟨state', pool⟩, hst, hres⟩ := map_eq_some_iff.mp hrun
  obtain ⟨_, hst', heq⟩ := map_eq_some_iff.mp hst
  cases heq
  cases hres
  by_cases hacc : state' = .accepting
  · subst hacc
    exact ⟨_, .see rfl hmem hst', hsee⟩
  · exact ⟨_, .look, hoth m state' hloc hst' hacc⟩

theorem walks_segmentState_look {segment : SegmentHandle} {k : SegmentState → ManagerM A α}
    (hk : ∀ state, Walks cfg (k state) g post) :
    Walks cfg ((segmentState segment).bind k) g post := by
  apply Walks.await
  intro m state m' hrun _
  obtain ⟨⟨state', _⟩, hst, hres⟩ := map_eq_some_iff.mp hrun
  obtain ⟨_, -, heq⟩ := map_eq_some_iff.mp hst
  cases heq
  cases hres
  exact ⟨_, .look, hk state'⟩

def Held.reactivated (ids : List SegmentId) (h : Held) : Held :=
  { h with accepting := h.mounted.filter (·.1.identity.id ∈ ids) ++ h.accepting }

theorem walks_reactivateMany
    (hcl : h.client = c) (heng : h.Engaged) (hph : h.phase = .absent ∨ h.phase = .entered)
    (herro : ∀ err, Walks cfg (k (.error err)) (g.holding h) post)
    (hok : Walks cfg (k (.ok ())) (g.holding (h.reactivated ids)) post) :
    Walks cfg ((onPool (·.reactivateMany c ids)).bind k) (g.holding h) post := by
  apply Walks.update
  intro m hloc
  obtain ⟨leases, hp⟩ := hloc.pool
  obtain ⟨-, -, hrvt⟩ := reactivatingMany hp c ids
  subst hcl
  cases hres : (m.pool.reactivateMany h.client ids).1 with
  | error err =>
    refine ⟨g.holding h, ?_, herro err⟩
    rw [reactivateMany_error hres]
    exact .look
  | ok =>
    rw [hres] at hrvt
    exact ⟨_, .reactivate h.phase rfl heng hrvt
      (fun leases hp => (reactivatingMany hp h.client ids).1) (.inl ⟨rfl, hph⟩), hok⟩

theorem walks_reactivate (phase : Phase) (hcl : h.client = c) (heng : h.Engaged)
    (hph : phase = h.phase ∧ (h.phase = .absent ∨ h.phase = .entered) ∨
      ∃ session request early, h.phase = .established session false ∧
      phase = .established session true ∧
        g.role = .mounting h.client request early ∧ h.Covers request [id])
    (herro : ∀ err, Walks cfg (k (.error err)) (g.holding h) post)
    (hok : Walks cfg (k (.ok ())) (g.holding { h.reactivated [id] with phase }) post) :
    Walks cfg ((onPool (·.reactivate c id)).bind k) (g.holding h) post := by
  apply Walks.update
  intro m hloc
  obtain ⟨leases, hp⟩ := hloc.pool
  obtain ⟨-, -, hchange⟩ := reactivating hp c id
  subst hcl
  cases hres : (m.pool.reactivate h.client id).1 with
  | error err =>
    refine ⟨g.holding h, ?_, herro err⟩
    rw [show (m.pool.reactivate h.client id).2 = m.pool from updateDirectCatalog_error hres]
    exact .look
  | ok =>
    rw [hres] at hchange
    exact ⟨_, .reactivate phase rfl heng hchange.batch
      (fun leases hp => (reactivating hp h.client id).1) hph, hok⟩

/-! ### Activation -/

theorem ClientManager.activate_activated (h : (m.lifecycle.activate cfg c now).1 = .ok (.activated session)) :
    m.activate cfg c now request = (.ok (.activated session), { m with
      lifecycle := (m.lifecycle.activate cfg c now).2
      established := m.established ++ [(session, request)] }) := by
  simp [ClientManager.activate, h]

theorem ClientManager.activate_other
    (h : ∀ session, (m.lifecycle.activate cfg c now).1 ≠ .ok (.activated session)) :
    m.activate cfg c now request = ((m.lifecycle.activate cfg c now).1,
      { m with lifecycle := (m.lifecycle.activate cfg c now).2 }) := by
  rw [ClientManager.activate]
  generalize m.lifecycle.activate cfg c now = result at h ⊢
  obtain ⟨_, lifecycle⟩ := result
  dsimp only
  split
  next session => exact absurd rfl (h session)
  · rfl

theorem move_registry (hstep : Performs cfg m.lifecycle event lifecycle)
    (hages : m.lifecycle.registry.Ages lifecycle.registry)
    (hsame : lifecycle.unfinished = m.lifecycle.unfinished) :
    Move cfg m g { m with lifecycle } g := by
  have hmove : Move cfg m g { m with lifecycle } { g with claims := g.claims + ([] : List ClientCleanup) } :=
    .registry [] hstep hages (by simp [hsame])
  simpa using hmove

theorem move_activate (h : ∀ session, (m.lifecycle.activate cfg c now).1 ≠ .ok (.activated session)) :
    Move cfg m g (m.activate cfg c now request).2 g := by
  rw [ClientManager.activate_other h]
  exact move_registry (.activate c now) (RegistryState.ages_activate cfg c now h) rfl

variable {k : Except ClientLifecycleError ActivateOutcome → ManagerM A α}

/-- The session of a slot has its entry, so that no other session is created. -/
theorem walks_activate_bound (hcl : h.client = c)
    (hbd : h.state.session ≠ none)
    (hk : ∀ result, (∀ session, result ≠ .ok (.activated session)) → Walks cfg (k result) (g.holding h) post) :
    Walks cfg ((activate cfg c now request).bind k) (g.holding h) post := by
  apply Walks.update
  intro m hloc
  subst hcl
  obtain ⟨huses, hsnd⟩ := hloc.held h rfl
  obtain ⟨session, hsess⟩ := ne_none_iff_exists'.mp hbd
  obtain ⟨_, hent, -⟩ := hloc.bound _ _ session (hloc.uses _ _ huses).1 (by rw [hsnd.state, hsess])
  have hoth : ∀ session, (m.lifecycle.activate cfg h.client now).1 ≠ .ok (.activated session) := by
    intro session hres
    obtain ⟨-, hnone, -⟩ := Lifecycle.activate_activated hres
    cases hnone.symm.trans hent
  refine ⟨_, move_activate hoth, hk _ ?_⟩
  rw [ClientManager.activate_other hoth]
  exact hoth

/-- A client without an entry gets a new session, or none. -/
theorem walks_activate_absent {early : Bool} (hcl : h.client = c)
    (hph : h.phase = .absent) (hrole : g.role = .mounting h.client request early)
    (hrdy : early = false → h.Covers request [])
    (herro : ∀ err, Walks cfg (k (.error err)) (g.holding h) post) (hok : ∀ session,
      Walks cfg (k (.ok (.activated session)))
      (g.holding { h with phase := .established session !early }) post) :
    Walks cfg ((activate cfg c now request).bind k) (g.holding h) post := by
  apply Walks.update
  intro m hloc
  subst hcl
  obtain ⟨-, hsnd⟩ := hloc.held h rfl
  have hent := hsnd.absent hph
  have hactvs := RegistryState.activates cfg h.client now m.lifecycle.registry
  cases hres : (m.lifecycle.activate cfg h.client now).1 with
  | error err =>
    have hoth : ∀ session,
      (m.lifecycle.activate cfg h.client now).1 ≠ .ok (.activated session) := by simp [hres]
    refine ⟨_, move_activate hoth, ?_⟩
    rw [ClientManager.activate_other hoth, hres]
    exact herro err
  | ok outcome =>
    cases outcome with
    | activated session =>
      rw [ClientManager.activate_activated hres]
      exact ⟨_, .establish rfl hph hrole hres hrdy, hok session⟩
    | alreadyActive session =>
      rw [show (m.lifecycle.registry.activate cfg h.client now).1 = _ from hres] at hactvs
      generalize (m.lifecycle.registry.activate cfg h.client now).2 = r at hactvs
      cases hactvs with
      | refresh e hsome => cases hent.symm.trans hsome

end Locked

end Cakemaster.Client
