import Cakemaster.Client.SlotWalks

/-!
# Mounting and unmounting as moves

An operation on a locked slot leaves a mount state that may be left behind (`Leaves`). The
frames around these operations take the slot, lock it, and put everything down again.
-/

namespace Cakemaster.Client

open Machine Machine.Prog Segment List Walks
open Object (ClientSession)

variable {A : UnitAllocator} {cfg : ClientLifecycleConfig} {α : Type} {g : Ghost}
  {post : α → Ghost → Prop} {early : Bool} {now : ClientTick} {segmentId : SegmentId}

namespace Held

variable {h h' : Held} {specs : List SegmentSpec} {ids : List SegmentId} {spec : SegmentSpec}
  {ref : EntryRef}
variable {request : List SegmentSpec} {session : ClientSession} {g' : Ghost}

theorem Follows.trans (hf : h.Follows h') (hf' : h'.Follows h'') : h.Follows h'' where
  client := hf'.client.trans hf.client
  slot := hf'.slot.trans hf.slot
  state := hf'.state.trans hf.state

theorem Rolled.follows (hrol : h.Rolled h') : h.Follows h' := by
  rcases hrol with rfl | rfl <;> exact ⟨rfl, rfl, rfl⟩

theorem Rolled.phase (hrol : h.Rolled h') : h'.phase = h.phase := by
  rcases hrol with rfl | rfl <;> rfl

theorem MayLeave.same (hph : ∀ session ready, h.phase ≠ .established session ready) :
    h.MayLeave h.state :=
  .inl ⟨rfl, hph⟩

theorem Covers.nil (h : Held) (ids : List SegmentId) : h.Covers [] ids := nofun

theorem Covers.cons_iff : h.Covers (spec :: specs) ids ↔ (spec.identity.owner = h.client →
    ∃ ref, (spec, ref) ∈ h.mounted ∧ (spec.identity.id ∈ ids ∨ (spec, ref) ∈ h.accepting)) ∧
    h.Covers specs ids :=
  forall_mem_cons

theorem Covers.append_iff :
    h.Covers (specs ++ specs') ids ↔ h.Covers specs ids ∧ h.Covers specs' ids :=
  forall_mem_append

theorem Covers.mono (hcov : h.Covers specs ids) (hcl : h'.client = h.client)
    (hmtd : h.mounted ⊆ h'.mounted) (hacc : h.accepting ⊆ h'.accepting) (hids : ids ⊆ ids') :
    h'.Covers specs ids' := by
  intro spec hspec hownr
  obtain ⟨ref, hmem, haccp⟩ := hcov spec hspec (hownr.trans hcl)
  exact ⟨ref, hmtd hmem, haccp.imp (@hids _) (@hacc _)⟩

theorem Covers.reactivated (hcov : h.Covers specs ids) : (h.reactivated ids).Covers specs [] := by
  intro spec hspec hownr
  obtain ⟨ref, hmem, hid | haccp⟩ := hcov spec hspec hownr
  · exact ⟨ref, hmem, .inr (mem_append_left _ (mem_filter.mpr ⟨hmem, decide_eq_true hid⟩))⟩
  · exact ⟨ref, hmem, .inr (mem_append_right _ haccp)⟩

/-- An operation on a slot is over: the slot is still locked, and the given state may be
left behind. -/
def Leaves (h : Held) (g : Ghost) (state : ClientMountState) (g' : Ghost) : Prop :=
  ∃ h', g' = g.holding h' ∧ h.Follows h' ∧ h'.MayLeave state

theorem Follows.leaves_same (hf : h.Follows h')
    (hph : ∀ session ready, h'.phase ≠ .established session ready) :
    h.Leaves g h.state (g.holding h') := by
  refine ⟨h', rfl, hf, ?_⟩
  rw [← hf.state]
  exact .same hph

/-- The session that the slot had is still its session. -/
theorem Follows.leaves_bound {state : ClientMountState} (hf : h.Follows h')
    (hsess : h.state.session = some session) (hst : state.session = some session) :
    h.Leaves g state (g.holding h') :=
  ⟨h', rfl, hf, .inr ⟨session, hst, .inr (hf.state ▸ hsess)⟩⟩

end Held

section Mounting

variable {c : ClientId} {h : Held}

/-- The state of a segment that was attached, when it is the client's own: it is not
removed as long as the slot is locked. -/
theorem Local.stateAt_ne_removed {m : ClientManager A} {spec : SegmentSpec}
    {segment : SegmentHandle} (hloc : Local cfg m g) (hheld : g.held = some h)
    (hmem : (spec, segment.entry) ∈ h.mounted) (hownr : spec.identity.owner = h.client) :
    m.pool.stateAt segment ≠ some .removed := by
  obtain ⟨_, hp⟩ := hloc.pool
  obtain ⟨-, hsnd⟩ := hloc.held h hheld
  obtain ⟨k, hmt, -, hent, -⟩ := hsnd.mounted _ hmem hownr
  have hst : m.pool.stateAt segment = some k.state := by
    rw [← stateAt_mount hmt, hent]
    rfl
  obtain ⟨-, hk | hk⟩ := hp.mounts.mount_spec hmt <;> simp [hst, hk]

theorem walks_attachSegments (before : List SegmentSpec) (hcl : h.client = c)
    (hph : h.phase = .absent) (hrole : g.role = .mounting h.client request early)
    (hcov : h.Covers before (attached ++ quiesced)) :
    Walks cfg (attachSegments (A := A) c specs attached quiesced) (g.holding h) fun result g' =>
      ∃ h', g' = g.holding h' ∧ h.Follows h' ∧ h'.phase = .absent ∧
        ∀ ids, result = .ok ids → h'.Covers (before ++ specs) (ids.1 ++ ids.2) := by
  induction specs generalizing h before attached quiesced with
  | nil =>
    refine .ret ⟨h, rfl, .refl h, hph, ?_⟩
    rintro ids ⟨⟩
    simpa using hcov
  | cons spec rest ih =>
    have heng : h.Engaged := .inl (by simp [hph])
    rw [attachSegments]
    refine walks_attachQuiesced heng (.inl hph) hrole (fun err => ?_) fun outcome => ?_
    · refine walks_failWith hcl heng (fun id _ => .inr ⟨⟨request, early, hrole⟩, .inl hph⟩) ?_
      intro err h' hrol
      exact .ret ⟨h', rfl, hrol.follows, hrol.phase.trans hph, nofun⟩
    -- the rest of the loop, when the segment is listed or known to accept
    have hnext : ∀ {h' : Held} {attached' quiesced' : List SegmentId}, (h.attach spec outcome).Follows h' →
        h'.phase = .absent → h'.Covers [spec] (attached' ++ quiesced') → h.mounted ⊆ h'.mounted →
        h.accepting ⊆ h'.accepting → attached ++ quiesced ⊆ attached' ++ quiesced' → Walks cfg
        (attachSegments (A := A) c rest attached' quiesced') (g.holding h') fun result g' =>
          ∃ h', g' = g.holding h' ∧ h.Follows h' ∧ h'.phase = .absent ∧
            ∀ ids, result = .ok ids → h'.Covers (before ++ spec :: rest) (ids.1 ++ ids.2) := by
      intro h' attached' quiesced' hf hph' hspec hmtd hacc hids
      have hbef : h'.Covers (before ++ [spec]) (attached' ++ quiesced') :=
        Held.Covers.append_iff.mpr ⟨hcov.mono hf.client hmtd hacc hids, hspec⟩
      have hf' : h.Follows h' := ⟨hf.client, hf.slot, hf.state⟩
      refine (ih _ (hf'.client.trans hcl) hph' (hrole.trans (by rw [hf'.client])) hbef).mono ?_
      rintro result g' ⟨h'', rfl, hf'', hph'', hok⟩
      refine ⟨h'', rfl, hf'.trans hf'', hph'', fun ids hres => ?_⟩
      simpa using hok ids hres
    have hself : ∀ {h' : Held} {ids : List SegmentId}, (spec, outcome.segment.entry) ∈ h'.mounted →
        (spec.identity.owner = h'.client → spec.identity.id ∈ ids ∨
        (spec, outcome.segment.entry) ∈ h'.accepting) → h'.Covers [spec] ids := by
      intro h' ids hmem haccp
      exact Held.Covers.cons_iff.mpr ⟨fun hownr => ⟨_, hmem, haccp hownr⟩, .nil _ _⟩
    have hmem : (spec, outcome.segment.entry) ∈ (h.attach spec outcome).mounted := mem_cons_self
    dsimp only
    split
    · refine hnext (.refl _) hph (hself hmem fun _ => .inl (by simp)) (subset_cons_self _ _)
        (List.Subset.refl _) ?_
      intro id hid
      simp only [mem_append] at hid ⊢
      tauto
    refine walks_segmentState hmem ?_ fun m state hloc hst hoth => ?_
    · refine hnext ⟨rfl, rfl, rfl⟩ hph (hself hmem fun _ => .inr mem_cons_self)
        (subset_cons_self _ _) (subset_cons_self _ _) (List.Subset.refl _)
    cases state with
    | accepting => exact absurd rfl hoth
    | quiesced =>
      refine hnext (.refl _) hph (hself hmem fun _ => .inl (by simp)) (subset_cons_self _ _)
        (List.Subset.refl _) ?_
      intro id hid
      simp only [mem_append] at hid ⊢
      tauto
    | removed =>
      refine hnext (.refl _) hph (hself hmem fun hownr => ?_) (subset_cons_self _ _)
        (List.Subset.refl _) (List.Subset.refl _)
      exact absurd hst (hloc.stateAt_ne_removed rfl hmem hownr)

theorem walks_remountAbsent (hcl : h.client = c)
    (hph : h.phase = .absent) (hrole : g.role = .mounting h.client request false) :
    Walks cfg (remountAbsent (A := A) cfg c request now h.state) (g.holding h)
      fun result g' => h.Leaves g result.2 g' := by
  rw [remountAbsent]
  refine seq (walks_attachSegments [] hcl hph hrole (.nil _ _)) ?_
  rintro result g' ⟨h', rfl, hf, hph', hok⟩
  have hcl' : h'.client = c := hf.client.trans hcl
  have heng : h'.Engaged := .inl (by simp [hph'])
  have hrole' : g.role = .mounting h'.client request false := by rw [hf.client, hrole]
  -- every way to fail leaves the slot as it was found
  have hfail : ∀ {h'' : Held} {attached quiesced : List SegmentId} {err : ClientManagerError},
      h'.Follows h'' → h''.phase = .absent → Walks cfg ((failWith (A := A) c attached quiesced
      err).bind fun err => .ret (.error err, h.state)) (g.holding h'')
        (fun result : Except ClientManagerError ActivateOutcome × ClientMountState => h.Leaves g result.2) := by
    intro h'' attached quiesced err hf' hph''
    have hrole'' : g.role = .mounting h''.client request false := by rw [hf'.client, hrole']
    refine walks_failWith (hf'.client.trans hcl') (.inl (by simp [hph'']))
      (fun id _ => .inr ⟨⟨request, false, hrole''⟩, .inl hph''⟩) fun err h₃ hrol => .ret ?_
    exact ((hf.trans hf').trans hrol.follows).leaves_same (by simp [hrol.phase, hph''])
  cases result with
  | error err => exact .ret (hf.leaves_same (by simp [hph']))
  | ok ids =>
    obtain ⟨attached, quiesced⟩ := ids
    refine walks_reactivateMany hcl' heng (.inl hph') (fun err => hfail (.refl _) hph') ?_
    have hcov : (h'.reactivated (attached ++ quiesced)).Covers request [] := (hok _ rfl).reactivated
    refine walks_activate_absent hcl' hph' hrole' (fun _ => hcov) (fun err => ?_) fun session => ?_
    · exact hfail ⟨rfl, rfl, rfl⟩ hph'
    · exact .ret ⟨_, rfl, ⟨hf.client, hf.slot, hf.state⟩, .inr ⟨session, rfl, .inl rfl⟩⟩

theorem walks_allMounted : Walks cfg (allMounted (A := A) specs) g fun _ g' => g' = g := by
  induction specs with
  | nil => exact .ret rfl
  | cons spec rest ih =>
    rw [allMounted]
    refine walks_readPool fun found => ?_
    cases found with
    | none => exact .ret rfl
    | some found =>
      dsimp only
      split
      · exact .ret rfl
      · exact ih

section

variable (hcl : h.client = c)
include hcl

theorem walks_remountActive :
    Walks cfg (remountActive (A := A) cfg c request now h.state) (g.holding h) fun _ g' =>
      g' = g.holding h := by
  rw [remountActive]
  refine walks_readRegistry fun m _ => ?_
  split
  · exact .ret rfl
  next session _ =>
  split
  · exact .ret rfl
  next hsess =>
  split
  · exact .ret rfl
  refine seq walks_allMounted ?_
  rintro _ g' rfl
  split
  · exact .ret rfl
  · refine walks_activate_bound hcl (by simp [not_not.mp hsess]) fun result _ => ?_
    cases result <;> exact .ret rfl

section

variable (hph : h.phase = .entered)
include hph

/-- The client has no entry, which its slot's lock keeps so. -/
theorem walks_readState {k : Option ClientState → ManagerM A α}
    (hnone : Walks cfg (k none) (g.holding { h with phase := .absent }) post)
    (hsome : ∀ state, Walks cfg (k (some state)) (g.holding h) post) :
    Walks cfg ((readRegistry (·.state c)).bind k) (g.holding h) post := by
  subst hcl
  apply Walks.read
  intro m hloc
  dsimp only
  cases hst : m.lifecycle.registry.state h.client with
  | none =>
    exact ⟨_, .absent rfl hph (Option.map_eq_none_iff.mp hst), hnone⟩
  | some state =>
    exact ⟨_, .look, hsome state⟩

theorem walks_remountLocked (hrole : g.role = .mounting h.client request false) :
    Walks cfg (remountLocked (A := A) cfg c request now h.state) (g.holding h)
      fun result g' => h.Leaves g result.2 g' := by
  have hsame : h.Leaves g h.state (g.holding h) := (Held.Follows.refl h).leaves_same (by simp [hph])
  rw [remountLocked]
  refine walks_readState hcl hph ?_ fun state => ?_
  · refine (walks_remountAbsent (h := { h with phase := .absent }) hcl rfl hrole).mono ?_
    rintro result g' ⟨h', rfl, hf, hlv⟩
    exact ⟨h', rfl, ⟨hf.client, hf.slot, hf.state⟩, hlv⟩
  · split
    · refine seq (walks_remountActive hcl) ?_
      rintro result g' rfl
      exact .ret hsame
    · exact .ret hsame
    next heq => cases heq

theorem walks_mountSegmentNew
    (hrole : g.role = .mounting h.client request early) (hsess : h.state.session = some session) :
    Walks cfg (mountSegmentNew (A := A) cfg c session spec now h.state) (g.holding h)
      fun result g' => h.Leaves g result.2 g' := by
  have heng : h.Engaged := .inr (by simp [hsess])
  have hatt : ∀ outcome, h.Follows (h.attach spec outcome) := fun _ => ⟨rfl, rfl, rfl⟩
  rw [mountSegmentNew]
  refine walks_attachQuiesced heng (.inr hph) hrole (fun err => ?_) fun outcome => ?_
  · exact .ret ((Held.Follows.refl h).leaves_same (by simp [hph]))
  dsimp only
  split
  · exact .ret ((hatt outcome).leaves_same (by simp [Held.attach, hph]))
  next hnew =>
  have hfrs : spec.identity.id ∈ (h.attach spec outcome).fresh := by simp_all [Held.attach]
  -- the segment is new, so that it may be taken away again
  have hfail : ∀ {h' : Held} {err : ClientManagerError}, (h.attach spec outcome).Follows h' →
      h'.phase = .entered → spec.identity.id ∈ h'.fresh → Walks cfg ((failWith (A := A) c
      [spec.identity.id] [] err).bind fun err => .ret (.error err, h.state)) (g.holding h')
        (fun result : Except ClientManagerError ActivateOutcome × ClientMountState => h.Leaves g result.2) := by
    intro h' err hf hph' hfrs'
    refine walks_failWith (hf.client.trans hcl) (.inr (by simp [hf.state, Held.attach, hsess]))
      (fun id hid => ?_) fun err h'' hrol => .ret ?_
    · cases mem_singleton.mp hid
      exact .inr ⟨⟨request, early, by rw [hf.client]; exact hrole⟩, .inr (.inr ⟨hph', hfrs'⟩)⟩
    · exact ((hatt outcome).trans (hf.trans hrol.follows)).leaves_same (by simp [hrol.phase, hph'])
  refine walks_reactivate _ hcl heng (.inl ⟨rfl, .inr hph⟩) (fun err => hfail (.refl _) hph hfrs) ?_
  refine walks_activate_bound hcl (by simp [Held.attach, Held.reactivated, hsess])
    fun result _ => ?_
  have hfail' : ∀ err, Walks cfg
      ((failWith (A := A) c [spec.identity.id] [] err).bind fun err => .ret (.error err, h.state))
      (g.holding { (h.attach spec outcome).reactivated [spec.identity.id] with phase := h.phase })
      (fun result : Except ClientManagerError ActivateOutcome × ClientMountState => h.Leaves g result.2) :=
    fun err => hfail ⟨rfl, rfl, rfl⟩ hph hfrs
  cases result with
  | error err => exact hfail' _
  | ok activated =>
    cases activated with
    | activated session' => exact hfail' _
    | alreadyActive current =>
      dsimp only
      split
      · exact .ret (Held.Follows.leaves_bound ⟨rfl, rfl, rfl⟩ hsess hsess)
      · exact hfail' _

end

theorem walks_mountSegmentAgain (hbd : h.state.session ≠ none) :
    Walks cfg (mountSegmentAgain (A := A) cfg c spec now) (g.holding h) fun _ g' =>
      g' = g.holding h := by
  rw [mountSegmentAgain]
  refine walks_readPool fun found => ?_
  cases found with
  | none => exact .ret rfl
  | some found =>
    obtain ⟨_, _⟩ := found
    dsimp only
    split
    · exact .ret rfl
    refine walks_segmentState_look fun state => ?_
    cases state with
    | accepting =>
      refine walks_activate_bound hcl hbd fun result _ => ?_
      cases result <;> exact .ret rfl
    | quiesced => exact .ret rfl
    | removed => exact .ret rfl

theorem walks_mountSegmentActive (hph : h.phase = .entered)
    (hrole : g.role = .mounting h.client request early) :
    Walks cfg (mountSegmentActive (A := A) cfg c spec now h.state) (g.holding h)
      fun result g' => h.Leaves g result.2 g' := by
  have hsame : h.Leaves g h.state (g.holding h) := (Held.Follows.refl h).leaves_same (by simp [hph])
  rw [mountSegmentActive]
  refine walks_readRegistry fun m _ => ?_
  split
  · exact .ret hsame
  next session _ =>
  split
  · exact .ret hsame
  next hsess =>
  have hsess' : h.state.session = some session := not_not.mp hsess
  split
  · refine seq (walks_mountSegmentAgain hcl (by simp [hsess'])) ?_
    rintro result g' rfl
    exact .ret hsame
  · exact walks_mountSegmentNew hcl hph hrole hsess'

end

theorem walks_rollbackActivation {ready : Bool}
    {k : Except ClientLifecycleError Unit → ManagerM A α}
    (hph : h.phase = .established session ready)
    (hok : Walks cfg (k (.ok ())) (g.holding { h with phase := .absent }) post)
    (herro : ∀ err, Walks cfg (k (.error err)) (g.holding { h with phase := .lapsed }) post) :
    Walks cfg ((onRegistry (·.rollbackActivation session)).bind k) (g.holding h) post := by
  apply Walks.update
  intro m _
  cases hres : (m.lifecycle.rollbackActivation session).1 with
  | ok => exact ⟨_, .withdraw rfl hph hres, hok⟩
  | error err =>
    obtain ⟨hsame, hlost⟩ := Lifecycle.rollbackActivation_error hres
    refine ⟨_, ?_, herro err⟩
    rw [hsame]
    exact .lapse rfl hph hlost

theorem walks_mountSegmentAbsent (hcl : h.client = c)
    (hph : h.phase = .absent) (hrole : g.role = .mounting h.client [spec] true) :
    Walks cfg (mountSegmentAbsent (A := A) cfg c spec now h.state) (g.holding h)
      fun result g' => h.Leaves g result.2 g' := by
  rw [mountSegmentAbsent]
  refine walks_attachQuiesced (.inl (by simp [hph])) (.inl hph) hrole (fun err => ?_)
    fun outcome => ?_
  · exact .ret ((Held.Follows.refl h).leaves_same (by simp [hph]))
  dsimp only
  have hatt : h.Follows (h.attach spec outcome) := ⟨rfl, rfl, rfl⟩
  have hfail : ∀ {attached : List SegmentId} {err : ClientManagerError},
      Walks cfg ((failWith (A := A) c attached [] err).bind fun err => .ret (.error err, h.state))
        (g.holding (h.attach spec outcome))
        (fun result : Except ClientManagerError ActivateOutcome × ClientMountState => h.Leaves g result.2) := by
    intro attached err
    refine walks_failWith (h := h.attach spec outcome) hcl (.inl (by simp [Held.attach, hph]))
      (fun id _ => .inr ⟨⟨_, _, hrole⟩, .inl hph⟩) fun err h' hrol => .ret ?_
    exact (hatt.trans hrol.follows).leaves_same (by simp [hrol.phase, Held.attach, hph])
  refine walks_activate_absent hcl hph hrole (by simp) (fun err => hfail) fun session => ?_
  dsimp only
  refine walks_reactivate (.established session true) hcl (.inl (by simp))
    (.inr ⟨session, [spec], true, rfl, rfl, hrole, ?_⟩) (fun err => ?_) ?_
  · exact Held.Covers.cons_iff.mpr ⟨fun _ => ⟨_, mem_cons_self, .inl mem_cons_self⟩, .nil _ _⟩
  · -- the session is taken back, or it is fenced already
    have hback : ∀ (k : _ → ManagerM A (Except ClientManagerError ActivateOutcome × ClientMountState))
        (h' : Held), (∀ rolled, ∃ result, k rolled = .ret (result, h.state)) → h.Follows h' →
        h'.phase = .absent ∨ h'.phase = .lapsed → Walks cfg ((rollback (A := A) c
        (if outcome.isNew then [spec.identity.id] else []) []).bind k) (g.holding h')
          fun result => h.Leaves g result.2 := by
      intro k h' hk hf hph'
      have hrole' : g.role = .mounting h'.client [spec] true := by rw [hf.client, hrole]
      refine seq (walks_rollback (hf.client.trans hcl) (.inl ?_) fun id _ => .inr ⟨⟨_, _, hrole'⟩, ?_⟩) ?_
      · rcases hph' with h | h <;> simp [h]
      · exact hph'.imp_right .inl
      · rintro rolled g' ⟨_, hrol, rfl⟩
        obtain ⟨result, hres⟩ := hk rolled
        rw [hres]
        refine .ret ((hf.trans hrol.follows).leaves_same ?_)
        rcases hph' with h | h <;> simp [hrol.phase, h]
    refine walks_rollbackActivation rfl ?_ fun err' => ?_
    · refine hback _ { h.attach spec outcome with phase := .absent } (fun rolled => ?_)
        ⟨rfl, rfl, rfl⟩ (.inl rfl)
      cases rolled <;> exact ⟨_, rfl⟩
    · refine hback _ { h.attach spec outcome with phase := .lapsed } (fun rolled => ?_)
        ⟨rfl, rfl, rfl⟩ (.inr rfl)
      cases rolled <;> exact ⟨_, rfl⟩
  · exact .ret ⟨_, rfl, ⟨rfl, rfl, rfl⟩, .inr ⟨session, rfl, .inl rfl⟩⟩

theorem walks_mountSegmentLocked (hcl : h.client = c)
    (hph : h.phase = .entered) (hrole : g.role = .mounting h.client [spec] true) :
    Walks cfg (mountSegmentLocked (A := A) cfg c spec now h.state) (g.holding h)
      fun result g' => h.Leaves g result.2 g' := by
  rw [mountSegmentLocked]
  refine walks_readState hcl hph ?_ fun state => ?_
  · refine (walks_mountSegmentAbsent (h := { h with phase := .absent }) hcl rfl hrole).mono ?_
    rintro result g' ⟨h', rfl, hf, hlv⟩
    exact ⟨h', rfl, ⟨hf.client, hf.slot, hf.state⟩, hlv⟩
  · split
    next heq => cases heq
    · exact walks_mountSegmentActive hcl hph hrole
    · exact .ret ((Held.Follows.refl h).leaves_same (by simp [hph]))

end Mounting

/-! ### The frames -/

section Frames

variable {c : ClientId} {r : SlotRef}

namespace Ghost

/-- The thread has everything it has in hand, apart from the reference to a slot. -/
structure Put (g g' : Ghost) : Prop where
  role : g'.role = g.role
  references : g'.references = g.references
  held : g'.held = none
  claims : g'.claims = g.claims
  cleared : g'.cleared = g.cleared

theorem Put.refl (hheld : g.held = none) : g.Put g := ⟨rfl, rfl, hheld, rfl, rfl⟩

theorem Put.trans (h : g.Put g') (h' : g'.Put g'') : g.Put g'' where
  role := h'.role.trans h.role
  references := h'.references.trans h.references
  held := h'.held
  claims := h'.claims.trans h.claims
  cleared := h'.cleared.trans h.cleared

theorem Put.done (h : g.Put g') (hdone : g.Done) : g'.Done where
  references := h.references.trans hdone.references
  held := h.held
  claims := h.claims.trans hdone.claims
  cleared := h.cleared.trans hdone.cleared

end Ghost

theorem walks_leave {found state : ClientMountState} {a : α}
    (hlvs : (Held.enter c r found).Leaves (g.take c r) state g') :
    Walks cfg ((unlockSlot (A := A) r state).bind fun _ => (dropSlot r).bind fun _ => .ret a) g'
      fun _ g' => g.Put g' := by
  obtain ⟨_, rfl, hf, hlv⟩ := hlvs
  refine walks_unlockSlot rfl hf.slot hlv ?_
  refine walks_dropSlot (Multiset.mem_cons_self r g.references) rfl (.ret ⟨rfl, ?_, rfl, rfl, rfl⟩)
  exact Multiset.erase_cons_head r g.references

variable (hheld : g.held = none)
include hheld

theorem walks_mounting {operation : ClientMountState →
      ManagerM A (Except ClientManagerError ActivateOutcome × ClientMountState)}
    (hrole : g.role = .mounting c request early)
    (hop : ∀ (h : Held) (g : Ghost), h.client = c →
      h.phase = .entered → g.role = .mounting h.client request early →
      Walks cfg (operation h.state) (g.holding h) fun result g' => h.Leaves g result.2 g') :
    Walks cfg (mounting c operation) g fun _ g' => g.Put g' := by
  rw [mounting]
  refine walks_takeSlot fun r => walks_lockSlot (g.uses_take c r) hheld fun state => ?_
  refine seq (hop (.enter c r state) (g.take c r) rfl rfl hrole) ?_
  rintro ⟨result, _⟩ g' ⟨_, rfl, hf, hlv⟩
  refine walks_unlockSlot rfl hf.slot hlv ?_
  have hdrop : ∀ {b : Except ClientManagerError ActivateOutcome} {g' : Ghost}, g'.role = g.role →
      g'.references = r ::ₘ g.references → g'.held = none → g'.claims = g.claims →
      g'.cleared = g.cleared → Walks cfg ((dropSlot (A := A) r).bind fun _ => .ret b) g' fun _ g' =>
      g.Put g' := by
    intro b g' hrole hrfs hheld hclms hclrd
    refine walks_dropSlot (hrfs ▸ Multiset.mem_cons_self r _) hheld (.ret ⟨hrole, ?_, hheld, hclms, hclrd⟩)
    rw [Ghost.forget, hrfs]
    exact Multiset.erase_cons_head r _
  cases result with
  | ok outcome => exact hdrop rfl rfl rfl rfl rfl
  | error err =>
    refine walks_pruneUnusedSlot (g.uses_take c r) rfl ?_ ?_
    · exact hdrop rfl rfl rfl rfl rfl
    · exact hdrop rfl rfl rfl rfl rfl

theorem walks_mountSegment (hrole : g.role = .mounting c [spec] true) :
    Walks cfg (mountSegment (A := A) cfg c spec now) g fun _ g' => g.Put g' := by
  rw [mountSegment]
  split
  · exact .ret (.refl hheld)
  split
  · exact .ret (.refl hheld)
  · exact walks_mounting hheld hrole fun h g hcl hph hrole => walks_mountSegmentLocked hcl hph hrole

theorem walks_remount (hrole : g.role = .mounting c segments false) :
    Walks cfg (remount (A := A) cfg c segments now) g fun _ g' => g.Put g' := by
  rw [remount]
  split
  · exact .ret (.refl hheld)
  · exact walks_mounting hheld hrole fun h g hcl hph hrole => walks_remountLocked hcl hph hrole

end Frames

/-! ### Unmounting -/

section Unmounting

variable {c : ClientId} {h : Held}

theorem Held.Rolled.leaves_same (hrol : h.Rolled h') (hph : h.phase = .entered) :
    h.Leaves g h.state (g.holding h') :=
  hrol.follows.leaves_same (by simp [hrol.phase, hph])

theorem walks_unmountLocked (hcl : h.client = c) (hph : h.phase = .entered)
    (hrole : g.role = .unmounting) :
    Walks cfg (unmountLocked (A := A) c session segmentId h.state) (g.holding h)
      fun result g' => h.Leaves g result.2 g' := by
  have hsame : h.Rolled h := .inl rfl
  rw [unmountLocked]
  split
  · exact .ret (hsame.leaves_same hph)
  next hbd =>
  have hsess : h.state.session = some session := by tauto
  refine walks_quiesce hcl (.inr (by simp [hsess])) (.inl ⟨hrole, hph⟩) fun result h' hrol => ?_
  have hf := hrol.follows
  cases result with
  | error err => exact .ret (hrol.leaves_same hph)
  | ok =>
    refine walks_remove (hf.client.trans hcl) (.inr (by simp [hf.state, hsess]))
      (.inl ⟨hrole, hrol.phase.trans hph⟩) fun result h'' hrol' => ?_
    have hrol'' := hrol.trans hrol'
    cases result with
    | error err => exact .ret (hrol''.leaves_same hph)
    | ok => exact walks_onGraceful fun _ => .ret (hrol''.follows.leaves_bound hsess hsess)

variable {k : Unit → ManagerM A α}

theorem walks_lockGraceful (hk : Walks cfg (k ()) g post) :
    Walks cfg (lockGraceful.bind k) g post := by
  apply Walks.await
  intro m b m' hf _
  split at hf
  · cases hf
  · cases hf
    exact ⟨g, .queue _ _, hk⟩

theorem walks_unlockGraceful {f : GracefulUnmountQueue → GracefulUnmountQueue}
    (hk : Walks cfg (k ()) g post) : Walks cfg ((unlockGraceful f).bind k) g post := by
  apply Walks.modify
  exact fun m _ => ⟨g, .queue _ _, hk⟩

theorem walks_scheduleLocked {segment : SegmentHandle} (hcl : h.client = c)
    (hph : h.phase = .entered) (hrole : g.role = .unmounting) :
    Walks cfg (scheduleLocked (A := A) c session segment segmentId deadline h.state) (g.holding h)
      fun _ g' => h.Leaves g h.state g' := by
  have hsame : h.Leaves g h.state (g.holding h) := Held.Rolled.leaves_same (.inl rfl) hph
  rw [scheduleLocked]
  split
  · exact .ret hsame
  next hbd =>
  have hsess : h.state.session = some session := by tauto
  refine walks_lockGraceful (walks_segmentState_look fun state => ?_)
  cases state with
  | accepting =>
    refine walks_quiesce hcl (.inr (by simp [hsess])) (.inl ⟨hrole, hph⟩) fun result h' hrol => ?_
    cases result <;> exact walks_unlockGraceful (.ret (hrol.leaves_same hph))
  | quiesced =>
    refine .read fun m _ => ⟨_, .look, ?_⟩
    split <;> exact walks_unlockGraceful (.ret hsame)
  | removed => exact walks_unlockGraceful (.ret hsame)

theorem walks_completeLocked (hcl : h.client = job.key.session.clientId)
    (hph : h.phase = .entered) (hrole : g.role = .unmounting) :
    Walks cfg (completeLocked (A := A) job h.state) (g.holding h) fun result g' =>
    h.Leaves g result.2 g' := by
  have hsame : h.Leaves g h.state (g.holding h) := Held.Rolled.leaves_same (.inl rfl) hph
  rw [completeLocked]
  split
  · exact .ret hsame
  next hbd =>
  have hsess : h.state.session = some job.key.session := by tauto
  have heng : h.Engaged := .inr (by simp [hsess])
  refine walks_readPool fun found => ?_
  cases found with
  | none => exact .ret hsame
  | some found =>
    dsimp only
    split
    · exact .ret hsame
    refine walks_segmentState_look fun state => ?_
    cases state with
    | accepting =>
      refine walks_quiesce hcl heng (.inl ⟨hrole, hph⟩) fun result h' hrol => ?_
      cases result <;> exact .ret (hrol.leaves_same hph)
    | removed => exact .ret hsame
    | quiesced =>
      refine walks_remove hcl heng (.inl ⟨hrole, hph⟩) fun result h' hrol => ?_
      cases result with
      | error err => exact .ret (hrol.leaves_same hph)
      | ok => exact .ret (hrol.follows.leaves_bound hsess hsess)

theorem walks_existing (operation : ClientMountState → ManagerM A (α × ClientMountState))
    (hheld : g.held = none)
    (hop : ∀ (h : Held) (g' : Ghost), h.client = c → h.phase = .entered → g'.role = g.role →
      Walks cfg (operation h.state) (g'.holding h) fun result g'' => h.Leaves g' result.2 g'') :
    Walks cfg ((takeExistingSlot c).bind fun slot =>
      match slot with
      | none => .ret a
      | some r => (lockSlot r).bind fun state => (operation state).bind fun result =>
          (unlockSlot r result.2).bind fun _ => (dropSlot r).bind fun _ =>
              .ret result.1) g fun _ g' => g.Put g' := by
  refine walks_takeExistingSlot (fun m _ => ⟨g, .look, .ret (.refl hheld)⟩) fun r _ => ?_
  refine walks_lockSlot (g.uses_take c r) hheld fun state => ?_
  refine seq (hop (.enter c r state) (g.take c r) rfl rfl rfl) ?_
  rintro ⟨result, _⟩ g' hlvs
  exact walks_leave hlvs

variable (hheld : g.held = none) (hrole : g.role = .unmounting)
include hheld hrole

theorem walks_unmountSegment :
    Walks cfg (unmountSegment (A := A) c segmentId) g fun _ g' => g.Put g' := by
  rw [unmountSegment]
  split
  · exact .ret (.refl hheld)
  split
  · exact .ret (.refl hheld)
  refine walks_readPool fun found => ?_
  cases found with
  | none => exact .ret (.refl hheld)
  | some found =>
    dsimp only
    split
    · exact .ret (.refl hheld)
    refine walks_readRegistry fun m _ => ?_
    split
    · exact .ret (.refl hheld)
    next session _ =>
    exact walks_existing (unmountLocked c session segmentId) hheld
      fun h g' hcl hph hrole' => walks_unmountLocked hcl hph (hrole'.trans hrole)

theorem walks_scheduleGracefulUnmount :
    Walks cfg (scheduleGracefulUnmount (A := A) c segmentId deadline) g fun _ g' => g.Put g' := by
  rw [scheduleGracefulUnmount]
  split
  · exact .ret (.refl hheld)
  split
  · exact .ret (.refl hheld)
  refine walks_readPool fun found => ?_
  cases found with
  | none => exact .ret (.refl hheld)
  | some found =>
    dsimp only
    split
    · exact .ret (.refl hheld)
    refine walks_readRegistry fun m _ => ?_
    split
    · exact .ret (.refl hheld)
    refine walks_takeExistingSlot (fun m _ => ⟨g, .look, .ret (.refl hheld)⟩) fun r _ => ?_
    refine walks_lockSlot (g.uses_take c r) hheld fun state => ?_
    refine seq (walks_scheduleLocked (h := .enter c r state) (g := g.take c r) rfl rfl hrole) ?_
    exact fun result g' hlvs => walks_leave hlvs

theorem walks_runGracefulJob :
    Walks cfg (runGracefulJob (A := A) now report job) g fun _ g' => g.Put g' := by
  have hcomplete : Walks cfg (completeGracefulUnmount (A := A) job) g fun _ g' => g.Put g' :=
    walks_existing (completeLocked job) hheld
      fun h g' hcl hph hrole' => walks_completeLocked hcl hph (hrole'.trans hrole)
  rw [runGracefulJob]
  refine seq hcomplete fun result g' hput => ?_
  split
  · exact walks_onGraceful fun _ => .ret hput
  · exact walks_onGraceful fun _ => .ret hput
  · refine walks_onGraceful fun retried => ?_
    split <;> exact .ret hput

theorem walks_runGracefulUnmountStep :
    Walks cfg (runGracefulUnmountStep (A := A) cfg now) g fun _ g' => g.Put g' := by
  rw [runGracefulUnmountStep]
  refine walks_onGraceful ?_
  rintro ⟨_, _⟩
  refine .foldOver (fun _ _ g' => g.Put g') (.refl hheld) ?_
  intro job rest report g' hput
  exact (walks_runGracefulJob hput.held (hput.role.trans hrole)).mono fun _ g'' hput' =>
    hput.trans hput'

end Unmounting

end Cakemaster.Client
