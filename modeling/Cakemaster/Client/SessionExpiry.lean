import Cakemaster.Client.SessionInvariant

/-!
# Expiry of sessions

A session is active until the latest of its deadlines, whatever the clock readings are
that the operations get. Heartbeats leave the record in the heap as it was; a scan that
meets it puts the record of the later deadline in its place, so that no active session
escapes a scan that comes to its end.
-/

namespace Cakemaster.Client

open Machine Segment RegistryState List
open Object (ClientSession)

variable {cfg : ClientLifecycleConfig} {event : RegistryEvent} {events : List RegistryEvent}
  {s s' : Lifecycle} {session : ClientSession}

/-- The states that later operations may lead to. -/
abbrev Lifecycle.Later (cfg : ClientLifecycleConfig) : Lifecycle → Lifecycle → Prop :=
  Relation.ReflTransGen fun s s' => ∃ event, Performs cfg s event s'

/-- An event that ends the activity of the entry's session: its activation is rolled back,
it is drained, or a time is reached that is not before its deadline. -/
def ClientEntry.EndsBy (e : ClientEntry) (event : RegistryEvent) : Prop :=
  event = .rollbackActivation e.session (.ok ()) ∨ (∃ reason result,
    event = .beginDrain e.session reason result) ∨ ∃ now, event.now = some now ∧ e.expiresAt ≤ now

/-- How sessions expire, in a registry after a run with the given events. -/
structure ExpirySemantics (cfg : ClientLifecycleConfig) (events : List RegistryEvent)
    (s : Lifecycle) : Prop where
  deadline : ∀ c e, s.entry c = some e → e.phase = .active → IsGreatest
    {d | ∃ now ∈ events.filterMap (·.refreshes e.session), d = Word.satAdd 64 now cfg.ttlTicks}
    e.expiresAt
  expires : ∀ event s', Performs cfg s event s' → ∀ c e, s.entry c = some e → e.phase = .active →
    ¬s'.Active e.session → e.EndsBy event
  never : ∀ session, (∃ clientId now, .activate clientId now (.ok (.activated session)) ∈ events) →
    ¬s.Active session → ∀ s', s.Later cfg s' → ¬s'.Active session ∧
    s'.registry.activeSessions session = false
  record : ∀ c e, s.entry c = some e → e.phase = .active → ∃ d ≤ e.expiresAt,
    s.registry.deadlines.filter (fun r => r.clientId = c ∧ r.generation = e.session.generation) =
      [⟨d, c, e.session.generation⟩]
  -- a scan handles the queued sessions first, then the records that are due
  scanned : ∀ now budget, s.registry.cleanupReady.length +
      (s.registry.deadlines.filter (·.expiresAt ≤ now)).length ≤ min budget cfg.cleanupScanBudget →
    ∀ c e, (s.claimDueCleanups cfg now budget).2.entry c = some e → e.phase = .active →
      now < e.expiresAt

/-! ### The end of an active session -/

section Ends

variable {c : ClientId} {next next' : ℕ} {v v' : SessionView} {e e' : ClientEntry}

theorem SessionTurn.ends (h : SessionTurn cfg event c next v next' v') (hent : v.entry = some e)
    (hactv : e.phase = .active) :
    (∃ e', v'.entry = some e' ∧ e'.session = e.session ∧ e'.phase = .active ∧ (event.Quiet → e' = e)) ∨
      e.EndsBy event := by
  have hsame : ∀ {e'}, v.entry = some e' → e' = e := fun h => Option.some.inj (h.symm.trans hent)
  have hoth : ∀ {e' phase}, v.entry = some e' → e'.phase = phase → phase ≠ .active →
      e.EndsBy event := by
    intro e' phase he' hph hne
    rw [← hph, hsame he'] at hne
    exact absurd hactv hne
  cases h with
  | create hnone => cases hent.symm.trans hnone
  | @refresh e' now he' _ _ hnow =>
    cases hsame he'
    refine .inl ⟨_, rfl, rfl, hactv, fun hqt => ?_⟩
    have hnone := hqt.2 e.session
    simp [hnow] at hnone
  | expire he' _ _ hnow hdue | due he' _ _ hnow hdue =>
    cases hsame he'
    exact .inr (.inr (.inr ⟨_, hnow, hdue⟩))
  | rollback he' _ _ hevent =>
    cases hsame he'
    exact .inr (.inl hevent)
  | drain he' _ _ hevent =>
    cases hsame he'
    exact .inr (.inr (.inl ⟨_, _, hevent⟩))
  | claim he' hph | claimQueued he' hph | dueReady he' hph | release he' hph =>
    exact .inr (hoth he' hph nofun)
  | finish _ _ hrng =>
    obtain ⟨e', _, he', -, hph⟩ := hrng
    exact .inr (hoth he' hph nofun)
  | dropReady | requeue | dropRecord | dispose => exact .inl ⟨e, hent, rfl, hactv, fun _ => rfl⟩

/-- A session becomes active only by its creation. -/
theorem SessionTurn.active_before (h : SessionTurn cfg event c next v next' v')
    (hent : v'.entry = some e') (hactv : e'.phase = .active) :
    next ≤ e'.session.generation ∨ ∃ e, v.entry = some e ∧ e.session = e'.session ∧
      e.phase = .active := by
  cases h with
  | create _ _ hgen =>
    cases hent
    exact .inl hgen.ge
  | refresh he hph =>
    cases hent
    exact .inr ⟨_, he, rfl, hph⟩
  | expire | drain | claim | claimQueued | due | dueReady | release =>
    cases hent
    cases hactv
  | rollback | finish => cases hent
  | dropReady | requeue | dropRecord | dispose => exact .inr ⟨e', hent, rfl, hactv⟩

theorem RegistryTurn.entry_of_ne (h : RegistryTurn cfg event c s s') (hc : c' ≠ c) :
    s'.entry c' = s.entry c' :=
  congrArg SessionView.entry (h.others c' hc)

theorem RegistryTurn.ends (h : RegistryTurn cfg event c s s') (hent : s.entry c' = some e)
    (hactv : e.phase = .active) :
    (∃ e', s'.entry c' = some e' ∧ e'.session = e.session ∧ e'.phase = .active ∧ (event.Quiet → e' = e)) ∨
      e.EndsBy event := by
  by_cases hc : c' = c
  · subst hc
    exact h.turn.ends hent hactv
  · exact .inl ⟨e, (h.entry_of_ne hc).trans hent, rfl, hactv, fun _ => rfl⟩

theorem Turns.ends (h : Turns cfg event s s') (hqt : event.Quiet) (hent : s.entry c = some e)
    (hactv : e.phase = .active) : s'.entry c = some e ∨ e.EndsBy event := by
  induction h with
  | refl => exact .inl hent
  | tail _ hturn ih =>
    obtain ⟨_, hturn⟩ := hturn
    rcases ih with hent | hends
    · rcases hturn.ends hent hactv with ⟨_, he', -, -, heq⟩ | hends
      · exact .inl (heq hqt ▸ he')
      · exact .inr hends
    · exact .inr hends

end Ends

theorem Performs.ends (h : Performs cfg s event s') (howd : s.Owned)
    (hent : s.entry c = some e) (hactv : e.phase = .active) (hleft : ¬s'.Active e.session) :
    e.EndsBy event := by
  have hcl : e.session.clientId = c := howd c e hent
  rcases h.turns howd with ⟨hqt, htns⟩ | ⟨_, hturn⟩
  · rcases htns.ends hqt hent hactv with hent' | hends
    · exact absurd ⟨e, hcl ▸ hent', rfl, hactv⟩ hleft
    · exact hends
  · rcases hturn.ends hent hactv with ⟨e', he', hsess, hactv', -⟩ | hends
    · exact absurd ⟨e', hcl ▸ he', hsess, hactv'⟩ hleft
    · exact hends

/-! ### Sessions of the past -/

/-- The session has been handed out and is not active. -/
def Lifecycle.Past (s : Lifecycle) (session : ClientSession) : Prop :=
  session.generation < s.registry.nextGeneration ∧ ¬s.Active session

theorem RegistryTurn.past (h : RegistryTurn cfg event c s s') (hpast : s.Past session) :
    s'.Past session := by
  have hnext := h.turn.next_cases
  refine ⟨by have := hpast.1; omega, ?_⟩
  rintro ⟨e', hent, rfl, hactv⟩
  by_cases hc : e'.session.clientId = c
  · subst hc
    rcases h.turn.active_before hent hactv with hle | ⟨e, he, hsess, hactv'⟩
    · exact absurd hpast.1 (Nat.not_lt.mpr hle)
    · exact hpast.2 ⟨e, he, hsess, hactv'⟩
  · exact hpast.2 ⟨e', (h.entry_of_ne hc).symm.trans hent, rfl, hactv⟩

theorem Performs.past (h : Performs cfg s event s') (howd : s.Owned) (hpast : s.Past session) :
    s'.Past session := by
  rcases h.turns howd with ⟨-, htns⟩ | ⟨c, hturn⟩
  · clear h howd
    induction htns with
    | refl => exact hpast
    | tail _ hturn ih =>
      obtain ⟨c, hturn⟩ := hturn
      exact hturn.past ih
  · exact hturn.past hpast

theorem History.later (h : History cfg events s) (hltr : s.Later cfg s') :
    ∃ events', History cfg events' s' := by
  induction hltr with
  | refl => exact ⟨events, h⟩
  | tail _ hstep ih =>
    obtain ⟨_, hstep⟩ := hstep
    obtain ⟨events', h'⟩ := ih
    exact ⟨_, h'.step hstep⟩

theorem History.past (h : History cfg events s) (hpast : s.Past session)
    (hltr : s.Later cfg s') : s'.Past session := by
  induction hltr with
  | refl => exact hpast
  | tail hltr hstep ih =>
    obtain ⟨_, hstep⟩ := hstep
    obtain ⟨_, h'⟩ := h.later hltr
    exact hstep.past h'.invariant.owned ih

/-- The guard of a session that is not active is not valid. -/
theorem History.guard (h : History cfg events s) (hsess : ¬s.Active session) :
    s.registry.activeSessions session = false := by
  have hgrd := (h.invariant.clients session.clientId).guard session
  have hview : (s.view session.clientId).active session = s.registry.activeSessions session := by
    simp [Lifecycle.view, view]
  rw [hview] at hgrd
  rw [← Bool.not_eq_true, hgrd]
  exact hsess

/-! ### Scans that come to their end -/

theorem claimEntry_queues (e : ClientEntry) (expected : CleanupClaimState) (r : RegistryState) :
    (r.claimEntry c e expected).2.deadlines = r.deadlines ∧
      (r.claimEntry c e expected).2.cleanupReady = r.cleanupReady := by
  unfold claimEntry
  split <;> exact ⟨rfl, rfl⟩

theorem takeReady_queues (session : ClientSession) (rest : List ClientSession) (r : RegistryState) :
    (r.takeReady session rest).2.deadlines = r.deadlines ∧
      (r.takeReady session rest).2.cleanupReady = rest := by
  unfold takeReady
  dsimp only
  split
  · exact ⟨rfl, rfl⟩
  · split
    · exact claimEntry_queues _ _ _
    · exact ⟨rfl, rfl⟩

/-- A queued session costs one unit of the budget, and the records are left alone. -/
theorem claimReady_costs (budget : ℕ) (r : RegistryState) (cleanups : List ClientCleanup) :
    budget ≤ (r.claimReady budget cleanups).1 + r.cleanupReady.length ∧
      (r.claimReady budget cleanups).2.2.deadlines = r.deadlines := by
  induction budget generalizing r cleanups with
  | zero => exact ⟨Nat.zero_le _, rfl⟩
  | succ budget ih =>
    unfold claimReady
    cases hrdy : r.cleanupReady with
    | nil => exact ⟨Nat.le_refl _, rfl⟩
    | cons session rest =>
      obtain ⟨hsame, hrest⟩ := takeReady_queues session rest r
      obtain ⟨hcost, hkept⟩ := ih (r.takeReady session rest).2 (cleanups ++ (r.takeReady session rest).1.toList)
      rw [hrest] at hcost
      exact ⟨Nat.succ_le_succ hcost, hkept.trans hsame⟩

/-- A record that is due is gone after its round; one that comes in its place is not due. -/
theorem takeDue_due (now : ClientTick) (record : DeadlineRecord) (rest : List DeadlineRecord)
    (r : RegistryState) :
    ((r.takeDue now record rest).2.deadlines.filter (·.expiresAt ≤ now)).length =
      (rest.filter (·.expiresAt ≤ now)).length := by
  unfold takeDue
  dsimp only
  split
  · rfl
  next e he =>
  split
  · rfl
  split
  · split
    next hahead =>
      have hperm := (perm_orderedInsert (fun a b => a.le b = true)
        (⟨e.expiresAt, record.clientId, record.generation⟩ : DeadlineRecord) rest).filter (·.expiresAt ≤ now)
      rw [filter_cons_of_neg (by simpa using hahead)] at hperm
      exact hperm.length_eq
    · rw [(claimEntry_queues _ _ _).1]
      rfl
  · rw [(claimEntry_queues _ _ _).1]
  · rfl

/-- A scan with a unit of budget for each due record stops at a record that is not due. -/
theorem claimExpired_stops (now : ClientTick) (budget : ℕ) (r : RegistryState)
    (cleanups : List ClientCleanup)
    (hfew : (r.deadlines.filter (·.expiresAt ≤ now)).length ≤ budget) :
    ∀ record ∈ (r.claimExpired now budget cleanups).2.2.deadlines.head?,
    now < record.expiresAt := by
  induction budget generalizing r cleanups with
  | zero =>
    intro record hmem
    have hnone := eq_nil_of_length_eq_zero (Nat.le_zero.mp hfew)
    simpa using filter_eq_nil_iff.mp hnone record (mem_of_mem_head? hmem)
  | succ budget ih =>
    unfold claimExpired
    cases hdls : r.deadlines with
    | nil => simp [hdls]
    | cons record rest =>
      dsimp only
      split
      next hahead => simpa [hdls] using hahead
      next hdue =>
      refine ih _ _ ?_
      rw [takeDue_due]
      rw [hdls, filter_cons_of_pos (by simpa using hdue), length_cons] at hfew
      omega

theorem Lifecycle.Ordered.lt_of_head (h : s.Ordered)
    (hhead : ∀ record ∈ s.registry.deadlines.head?, now < record.expiresAt) :
    ∀ record ∈ s.registry.deadlines, now < record.expiresAt := by
  rw [Lifecycle.Ordered] at h
  cases hdls : s.registry.deadlines with
  | nil => simp
  | cons first rest =>
    rw [hdls] at h hhead
    have hfirst : now < first.expiresAt := hhead first rfl
    intro record hmem
    rcases mem_cons.mp hmem with rfl | hmem
    · exact hfirst
    · have hle := rel_of_pairwise_cons h hmem
      simp only [DeadlineRecord.le, decide_eq_true_eq] at hle
      rcases hle with hlt | ⟨heq, -⟩
      · exact hfirst.trans hlt
      · exact heq ▸ hfirst

theorem History.record (h : History cfg events s) (hent : s.entry c = some e)
    (hactv : e.phase = .active) : ∃ d ≤ e.expiresAt,
      s.registry.deadlines.filter (fun r => r.clientId = c ∧ r.generation = e.session.generation) =
        [⟨d, c, e.session.generation⟩] := by
  obtain ⟨d, hd, hrec⟩ := (h.invariant.clients c).record e hent hactv
  refine ⟨d, hd, ?_⟩
  rw [Lifecycle.view, view, Multiset.filter_filter, Multiset.filter_coe, Multiset.coe_eq_singleton]
    at hrec
  rw [← hrec]
  congr 1
  funext record
  simp [and_comm]

/-- Sessions expire as they should, in every history. -/
theorem expiry_semantics (h : History cfg events s) : ExpirySemantics cfg events s := by
  have hinv := h.invariant
  refine ⟨fun c => (hinv.clients c).deadline, fun event s' hstep c e => hstep.ends hinv.owned, ?_,
    fun c e => h.record, ?_⟩
  · rintro session ⟨_, now, hmem⟩ hleft s' hlater
    have hold : session.generation < s.registry.nextGeneration :=
      hinv.past _ (List.mem_filterMap.mpr ⟨_, hmem, rfl⟩)
    obtain ⟨_, h'⟩ := h.later hlater
    have hpast := h.past ⟨hold, hleft⟩ hlater
    exact ⟨hpast.2, h'.guard hpast.2⟩
  · intro now budget hfew c e hentry hactive
    have h' := h.step (.claimDueCleanups now budget)
    obtain ⟨d, hd, hrecord⟩ := h'.record hentry hactive
    have hmem : (⟨d, c, e.session.generation⟩ : DeadlineRecord) ∈
        (s.claimDueCleanups cfg now budget).2.registry.deadlines :=
      (List.mem_filter.mp (hrecord ▸ List.mem_singleton_self _)).1
    obtain ⟨_, hsame⟩ := claimReady_costs (min budget cfg.cleanupScanBudget) s.registry []
    have hall := h'.invariant.ordered.lt_of_head
      (claimExpired_stops now _ _ _ (by rw [hsame]; omega))
    exact (hall _ hmem).trans_le hd

/-- A heartbeat with a time before the session's activation leaves its deadline as it is; a
scan at the deadline ends this session and no other. -/
theorem expiry_semantics_scanned :
    ∃ events s, History ⟨5, 2, 4⟩ events s ∧ ExpirySemantics ⟨5, 2, 4⟩ events s ∧
    let entries (s : Lifecycle) := [s.entry ⟨0, 1⟩, s.entry ⟨0, 2⟩].map (·.map fun e => (e.phase, e.expiresAt))
    entries s = [some (.active, 12), some (.active, 14)] ∧
    entries (s.claimDueCleanups ⟨5, 2, 4⟩ 12 4).2 =
      [some (.cleanupPending .heartbeatExpired .running, 12), some (.active, 14)] ∧
    ∀ c e, (s.claimDueCleanups ⟨5, 2, 4⟩ 12 4).2.entry c = some e → e.phase = .active →
      12 < e.expiresAt := by
  have h : History ⟨5, 2, 4⟩ _ _ :=
    .step (.step (.step .new (.activate ⟨0, 1⟩ 7)) (.activate ⟨0, 2⟩ 9)) (.heartbeat ⟨0, 1⟩ 3)
  exact ⟨_, _, h, expiry_semantics h, by decide +kernel, by decide +kernel,
    (expiry_semantics h).scanned 12 4 (by decide +kernel)⟩

end Cakemaster.Client
