import Cakemaster.Client.Lifecycle
import Mathlib.Logic.Relation

/-!
# What the registry does to one client

`SessionTurn` lists everything that an operation may do to the part of one client, with
the guards of the code. Every operation is a turn of one client, or nothing; the scan for
due cleanups is a sequence of turns.
-/

namespace Cakemaster.Client

open Machine Segment Function SessionView RegistryState AList
open Object (ClientSession)

variable {cleanup : ClientCleanup} {now : ClientTick} (session : ClientSession)

/-- The event hands out no session and refreshes none. -/
def RegistryEvent.Quiet (event : RegistryEvent) : Prop :=
  event.handedOut = none ∧ ∀ session, event.refreshes session = none

namespace SessionView

def toPhase (v : SessionView) (e : ClientEntry) (phase : ClientPhase) : SessionView :=
  { v with entry := some { e with phase } }

def fenced (v : SessionView) (session : ClientSession) : SessionView :=
  { v with active := Function.update v.active session false }

def claimed (v : SessionView) (e : ClientEntry) (reason : CleanupReason) : SessionView :=
  { v.toPhase e (.cleanupPending reason .running) with unfinished := ⟨e.session, reason⟩ ::ₘ v.unfinished }

def Running (v : SessionView) (session : ClientSession) : Prop :=
  ∃ e reason, v.entry = some e ∧ e.session = session ∧ e.phase = .cleanupPending reason .running

/-- A queued session that no cleanup waits for. -/
def StaleReady (v : SessionView) (session : ClientSession) : Prop :=
  ∀ e reason, v.entry = some e → e.session = session → e.phase ≠ .cleanupPending reason .queued

/-- A deadline record that nothing waits for. -/
def StaleRecord (v : SessionView) (generation : ℕ) : Prop :=
  ∀ e, v.entry = some e → e.session.generation = generation →
    e.phase ≠ .active ∧ e.phase ≠ .cleanupPending .heartbeatExpired .ready

end SessionView

/-- A turn of client `c` in an operation with the given event; `next` is the next
generation. -/
inductive SessionTurn (cfg : ClientLifecycleConfig) (event : RegistryEvent) (c : ClientId)
    (next : ℕ) (v : SessionView) : ℕ → SessionView → Prop
  | create {session : ClientSession} {now : ClientTick} (hent : v.entry = none)
      (hcl : session.clientId = c) (hgen : session.generation = next) (hout : event.handedOut = some next)
      (hnow : ∀ x, event.refreshes x = if session = x then some now else none) :
      SessionTurn cfg event c next v (next + 1) { v with
        entry := some ⟨session, .active, Word.satAdd 64 now cfg.ttlTicks⟩
        records := ⟨Word.satAdd 64 now cfg.ttlTicks, c, next⟩ ::ₘ v.records
        active := Function.update v.active session true }
  | refresh {e : ClientEntry} {now : ClientTick} (hent : v.entry = some e)
      (hactv : e.phase = .active) (hout : event.handedOut = none)
      (hnow : ∀ x, event.refreshes x = if e.session = x then some now else none) :
      SessionTurn cfg event c next v next { v with entry := some (e.refresh now cfg.ttlTicks) }
  | expire {e : ClientEntry} {now : ClientTick} (hent : v.entry = some e)
      (hactv : e.phase = .active) (hqt : event.Quiet) (hnow : event.now = some now)
      (hdue : e.expiresAt ≤ now) :
      SessionTurn cfg event c next v next
        ((v.toPhase e (.cleanupPending .heartbeatExpired .ready)).fenced e.session)
  | rollback {e : ClientEntry} (hent : v.entry = some e)
      (hactv : e.phase = .active) (hqt : event.Quiet)
      (hevent : event = .rollbackActivation e.session (.ok ())) :
      SessionTurn cfg event c next v next ({ v with entry := none }.fenced e.session)
  | drain {e : ClientEntry} (hent : v.entry = some e)
      (hactv : e.phase = .active) (hqt : event.Quiet)
      (hevent : event = .beginDrain e.session reason result) :
      SessionTurn cfg event c next v next ((v.claimed e reason).fenced e.session)
  | claim {e : ClientEntry} (hent : v.entry = some e)
      (hrdy : e.phase = .cleanupPending reason .ready) (hqt : event.Quiet) :
      SessionTurn cfg event c next v next (v.claimed e reason)
  | claimQueued {e : ClientEntry} (hent : v.entry = some e)
      (hqd : e.phase = .cleanupPending reason .queued) (hqt : event.Quiet)
      (hrdy : v.ready = e.session ::ₘ rest) :
      SessionTurn cfg event c next v next { v.claimed e reason with ready := rest }
  | dropReady {session : ClientSession}
      (hqt : event.Quiet) (hrdy : v.ready = session ::ₘ rest) (hstl : v.StaleReady session) :
      SessionTurn cfg event c next v next { v with ready := rest }
  | requeue {e : ClientEntry} (hent : v.entry = some e) (hactv : e.phase = .active)
      (hqt : event.Quiet) (hrec : v.records = record ::ₘ rest)
      (hgen : e.session.generation = record.generation) :
      SessionTurn cfg event c next v next { v with records := ⟨e.expiresAt, c, record.generation⟩ ::ₘ rest }
  | due {e : ClientEntry}
      {now : ClientTick} (hent : v.entry = some e) (hactv : e.phase = .active) (hqt : event.Quiet)
      (hnow : event.now = some now) (hdue : e.expiresAt ≤ now) (hrec : v.records = record ::ₘ rest)
      (hgen : e.session.generation = record.generation) :
      SessionTurn cfg event c next v next
        { (v.claimed e .heartbeatExpired).fenced e.session with records := rest }
  | dueReady {e : ClientEntry} (hent : v.entry = some e)
      (hrdy : e.phase = .cleanupPending .heartbeatExpired .ready) (hqt : event.Quiet)
      (hrec : v.records = record ::ₘ rest) :
      SessionTurn cfg event c next v next { v.claimed e .heartbeatExpired with records := rest }
  | dropRecord
      (hqt : event.Quiet) (hrec : v.records = record ::ₘ rest)
      (hstl : v.StaleRecord record.generation) :
      SessionTurn cfg event c next v next { v with records := rest }
  | finish {cleanup : ClientCleanup} (hqt : event.Quiet)
      (hmem : cleanup ∈ v.unfinished) (hrng : v.Running cleanup.session) :
      SessionTurn cfg event c next v next { v with
        entry := none
        unfinished := v.unfinished.erase cleanup }
  | release {e : ClientEntry} {cleanup : ClientCleanup}
      (hent : v.entry = some e) (hrng : e.phase = .cleanupPending reason .running)
      (hqt : event.Quiet) (hmem : cleanup ∈ v.unfinished) (hsess : e.session = cleanup.session) :
      SessionTurn cfg event c next v next { v.toPhase e (.cleanupPending reason .queued) with
        ready := e.session ::ₘ v.ready
        unfinished := v.unfinished.erase cleanup }
  | dispose {cleanup : ClientCleanup} (hqt : event.Quiet)
      (hmem : cleanup ∈ v.unfinished) (hstl : ¬v.Running cleanup.session) :
      SessionTurn cfg event c next v next { v with unfinished := v.unfinished.erase cleanup }

namespace Lifecycle

def view (s : Lifecycle) : ClientId → SessionView := s.registry.view s.unfinished

variable {s : Lifecycle}

theorem mem_unfinished_view :
    cleanup ∈ (s.view c).unfinished ↔ cleanup ∈ s.unfinished ∧ cleanup.session.clientId = c := by
  simp [view, RegistryState.view]

theorem mem_ready_view {session : ClientSession} :
    session ∈ (s.view c).ready ↔ session ∈ s.registry.cleanupReady ∧ session.clientId = c := by
  simp [view, RegistryState.view]

theorem mem_records_view {record : DeadlineRecord} :
    record ∈ (s.view c).records ↔ record ∈ s.registry.deadlines ∧ record.clientId = c := by
  simp [view, RegistryState.view]

def Ordered (s : Lifecycle) : Prop := s.registry.deadlines.Pairwise fun a b => a.le b

end Lifecycle

/-- One client takes a turn. -/
structure RegistryTurn (cfg : ClientLifecycleConfig) (event : RegistryEvent) (c : ClientId)
    (s s' : Lifecycle) :
    Prop where
  turn : SessionTurn cfg event c s.registry.nextGeneration (s.view c) s'.registry.nextGeneration
    (s'.view c)
  others : ∀ c', c' ≠ c → s'.view c' = s.view c'
  ordered : s.Ordered → s'.Ordered
  bounded : s'.registry.len ≤ max s.registry.len cfg.maxClients

namespace RegistryState

variable {r : RegistryState} {c : ClientId} {e : ClientEntry}

theorem len_setEntry (h : r.entries.lookup c = some e) (e' : ClientEntry) :
    (r.setEntry c e').len = r.len := by
  have hmem : c ∈ r.entries.keys := by
    rw [← mem_keys, ← lookup_isSome, h]
    rfl
  rw [len, setEntry, keys_insert, List.length_cons, List.length_erase_of_mem hmem, len]
  exact Nat.succ_pred_eq_of_pos (List.length_pos_of_mem hmem)

theorem len_removeEntry_le (r : RegistryState) (c : ClientId) : (r.removeEntry c).len ≤ r.len := by
  rw [len, removeEntry, keys_erase]
  exact List.length_erase_le

end RegistryState

instance : Std.Total fun a b : DeadlineRecord => a.le b = true where
  total a b := by
    simp only [DeadlineRecord.le, decide_eq_true_eq]
    grind

instance : IsTrans DeadlineRecord fun a b => a.le b = true where
  trans a b d := by
    simp only [DeadlineRecord.le, decide_eq_true_eq]
    grind

variable {r : RegistryState}

theorem Lifecycle.Ordered.pushDeadline {unfinished : List ClientCleanup}
    (h : (⟨r, unfinished⟩ : Lifecycle).Ordered) (record : DeadlineRecord) :
    (⟨r.pushDeadline record, unfinished⟩ : Lifecycle).Ordered :=
  List.Pairwise.orderedInsert _ _ h

/-! ### The operations -/

section Operations

variable {cfg : ClientLifecycleConfig} {event : RegistryEvent} {s s' : Lifecycle} {c : ClientId}

theorem RegistryTurn.of_view (hview : s'.view = update s.view c v)
    (hturn : SessionTurn cfg event c s.registry.nextGeneration (s.view c) s'.registry.nextGeneration v)
    (hordered : s.Ordered → s'.Ordered)
    (hlen : s'.registry.len ≤ max s.registry.len cfg.maxClients) :
    RegistryTurn cfg event c s s' where
  turn := by
    rw [hview, update_self]
    exact hturn
  others c' hc := by rw [hview, update_of_ne hc]
  ordered := hordered
  bounded := hlen

theorem view_fenceEntry (r : RegistryState) (unfinished : List ClientCleanup)
    (hcl : e.session.clientId = c) (reason : CleanupReason) :
    (r.fenceEntry c e reason).view unfinished =
      update (r.view unfinished) c
        (((r.view unfinished c).toPhase e (.cleanupPending reason .ready)).fenced e.session) := by
  subst hcl
  rw [fenceEntry, view_invalidate, view_setEntry]
  simp [toPhase, fenced, ClientEntry.fence]

theorem expire_turn (hent : s.entry c = some e) (hcl : e.session.clientId = c)
    (hactv : e.phase = .active) (hqt : event.Quiet) (hnow : event.now = some now)
    (hdue : e.expiresAt ≤ now) :
    RegistryTurn cfg event c s { s with registry := s.registry.fenceEntry c e .heartbeatExpired } :=
  .of_view (view_fenceEntry _ _ hcl _) (.expire hent hactv hqt hnow hdue) id
    (le_max_of_le_left (len_setEntry hent _).le)

theorem refresh_turn (hent : s.entry c = some e) (hactv : e.phase = .active)
    (hout : event.handedOut = none)
    (hnow : ∀ x, event.refreshes x = if e.session = x then some now else none) :
    RegistryTurn cfg event c s { s with registry := s.registry.setEntry c (e.refresh now cfg.ttlTicks) } :=
  .of_view (view_setEntry ..) (.refresh hent hactv hout hnow) id
    (le_max_of_le_left (len_setEntry hent _).le)

theorem view_insertSession (r : RegistryState) (unfinished : List ClientCleanup) (next : ℕ)
    (hnext : 0 < next) (expiresAt : ClientTick) :
    (r.insertSession c next hnext expiresAt).2.view unfinished =
      update (r.view unfinished) c { r.view unfinished c with
        entry := some ⟨⟨c, r.nextGeneration, r.nextGeneration_pos⟩, .active, expiresAt⟩
        records := ⟨expiresAt, c, r.nextGeneration⟩ ::ₘ (r.view unfinished c).records
        active := update (r.view unfinished c).active ⟨c, r.nextGeneration, r.nextGeneration_pos⟩ true } := by
  rw [insertSession, view_pushDeadline]
  funext c'
  by_cases hc : c' = c
  · subst hc
    simp only [update_self, view, lookup_insert, SessionView.mk.injEq, true_and]
    funext x
    by_cases hx : x = ⟨c', r.nextGeneration, r.nextGeneration_pos⟩ <;> simp [hx]
  · simp only [update_of_ne hc, view, lookup_insert_ne hc, SessionView.mk.injEq, true_and]
    funext x
    by_cases hx : x = ⟨c, r.nextGeneration, r.nextGeneration_pos⟩
    · simp [hx, Ne.symm hc]
    · simp [hx]

theorem insert_turn (hent : s.entry c = none) (hroom : s.registry.len < cfg.maxClients)
    (hout : event.handedOut = some s.registry.nextGeneration) (hnow : ∀ x, event.refreshes x =
      if (⟨c, s.registry.nextGeneration, s.registry.nextGeneration_pos⟩ : ClientSession) = x then
        some now else none) :
    RegistryTurn cfg event c s { s with registry := (s.registry.insertSession c (s.registry.nextGeneration + 1)
      (Nat.succ_pos _) (Word.satAdd 64 now cfg.ttlTicks)).2 } := by
  refine .of_view (view_insertSession ..) (.create hent rfl rfl hout hnow)
    (fun h => h.pushDeadline _) ?_
  have hmem : c ∉ s.registry.entries.keys := by
    rw [← mem_keys, ← lookup_eq_none]
    exact hent
  have hlen : (s.registry.entries.insert c
      ⟨⟨c, s.registry.nextGeneration, s.registry.nextGeneration_pos⟩, .active,
      Word.satAdd 64 now cfg.ttlTicks⟩).keys.length = s.registry.len + 1 := by
    rw [keys_insert, List.length_cons, List.erase_of_not_mem hmem, len]
  exact le_max_of_le_right (hlen.le.trans (Nat.succ_le_of_lt hroom))

/-- An operation does nothing, or one client takes a turn. -/
def Settles (cfg : ClientLifecycleConfig) (event : RegistryEvent) (c : ClientId)
    (s s' : Lifecycle) : Prop :=
  event.Quiet ∧ s' = s ∨ RegistryTurn cfg event c s s'

/-- The entry under an id is of a session of that client. -/
def Lifecycle.Owned (s : Lifecycle) : Prop := ∀ c e, s.entry c = some e → e.session.clientId = c

theorem activate_settles (howd : s.Owned) (c : ClientId) (now : ClientTick) :
    Settles cfg (.activate c now (s.activate cfg c now).1) c s (s.activate cfg c now).2 := by
  have h := s.registry.activates cfg c now
  dsimp only [Lifecycle.activate]
  generalize (s.registry.activate cfg c now).1 = result at h ⊢
  generalize (s.registry.activate cfg c now).2 = r at h ⊢
  cases h with
  | refuse err => exact .inl ⟨⟨rfl, fun _ => rfl⟩, rfl⟩
  | expire e hent hactv hdue =>
    exact .inr (expire_turn hent (howd c e hent) hactv ⟨rfl, fun _ => rfl⟩ rfl hdue)
  | refresh e hent hactv => exact .inr (refresh_turn hent hactv rfl fun _ => rfl)
  | create hent hroom => exact .inr (insert_turn hent hroom rfl fun _ => rfl)

theorem heartbeat_settles (howd : s.Owned) (c : ClientId) (now : ClientTick) :
    Settles cfg (.heartbeat c now (s.heartbeat cfg c now).1) c s (s.heartbeat cfg c now).2 := by
  have h := s.registry.beats cfg c now
  dsimp only [Lifecycle.heartbeat]
  generalize (s.registry.heartbeat cfg c now).1 = outcome at h ⊢
  generalize (s.registry.heartbeat cfg c now).2 = r at h ⊢
  cases h with
  | ignore => exact .inl ⟨⟨rfl, fun _ => rfl⟩, rfl⟩
  | expire e hent hactv hdue =>
    exact .inr (expire_turn hent (howd c e hent) hactv ⟨rfl, fun _ => rfl⟩ rfl hdue)
  | refresh e hent hactv => exact .inr (refresh_turn hent hactv rfl fun _ => rfl)

theorem rollback_settles :
    Settles cfg (.rollbackActivation session (s.rollbackActivation session).1) session.clientId s
      (s.rollbackActivation session).2 := by
  have h := s.registry.rollsBack session
  dsimp only [Lifecycle.rollbackActivation]
  generalize (s.registry.rollbackActivation session).1 = result at h ⊢
  generalize (s.registry.rollbackActivation session).2 = r at h ⊢
  cases h with
  | refuse err => exact .inl ⟨⟨rfl, fun _ => rfl⟩, rfl⟩
  | remove e hent hsess hactv =>
    subst hsess
    refine .inr (.of_view ?_ (.rollback hent hactv ⟨rfl, fun _ => rfl⟩ rfl) id
      (le_max_of_le_left (len_removeEntry_le _ _)))
    change view _ _ = _
    rw [view_removeEntry, view_invalidate]
    simp [fenced, Lifecycle.view]

theorem view_claimed (r : RegistryState) (unfinished : List ClientCleanup) (e : ClientEntry)
    (reason : CleanupReason) :
    (r.setEntry e.session.clientId { e with phase := .cleanupPending reason .running }).view
      (unfinished ++ [⟨e.session, reason⟩]) = update (r.view unfinished) e.session.clientId
        ((r.view unfinished e.session.clientId).claimed e reason) := by
  rw [view_append, view_setEntry]
  simp [claimed, toPhase]

theorem drain_settles (reason : CleanupReason) :
    Settles cfg (.beginDrain session reason (s.beginDrain session reason).1) session.clientId s
      (s.beginDrain session reason).2 := by
  have h := s.registry.drains session reason
  unfold Lifecycle.beginDrain
  generalize s.registry.beginDrain session reason = drained at h
  obtain ⟨_, _⟩ := drained
  dsimp only at h
  cases h with
  | refuse err => exact .inl ⟨⟨rfl, fun _ => rfl⟩, rfl⟩
  | fence e hent hsess hactv =>
    subst hsess
    refine .inr (.of_view ?_ (.drain hent hactv ⟨rfl, fun _ => rfl⟩ rfl) id ?_)
    · change view _ (s.unfinished ++ [_]) = _
      rw [view_claimed, view_fenceEntry _ _ rfl]
      simp [claimed, toPhase, fenced, Lifecycle.view]
    · refine le_max_of_le_left (le_of_eq ?_)
      have hfenced := len_setEntry hent (e.fence reason)
      rw [len_setEntry (e := e.fence reason), ← hfenced]
      · rfl
      · exact lookup_insert _
  | claim e old hent hsess hrdy =>
    subst hsess
    exact .inr (.of_view (view_claimed ..) (.claim hent hrdy ⟨rfl, fun _ => rfl⟩) id
      (le_max_of_le_left (len_setEntry hent _).le))
  | leave e hent hsess hactv =>
    refine .inl ⟨⟨rfl, fun _ => rfl⟩, ?_⟩
    simp

theorem view_requeued (r : RegistryState) (unfinished : List ClientCleanup)
    (session : ClientSession) (e : ClientEntry) :
    ({ r.setEntry session.clientId e with cleanupReady := r.cleanupReady ++ [session] }).view
    unfinished =
      update (r.view unfinished) session.clientId { r.view unfinished session.clientId with
        entry := some e
        ready := session ::ₘ (r.view unfinished session.clientId).ready } := by
  have hpush := (r.setEntry session.clientId e).view_pushReady unfinished session
  rw [view_setEntry, update_idem, update_self] at hpush
  exact hpush

theorem drop_turn (hqt : event.Quiet) (hmem : cleanup ∈ s.unfinished) :
    RegistryTurn cfg event cleanup.session.clientId s (s.drop cleanup) := by
  have hview : cleanup ∈ (s.view cleanup.session.clientId).unfinished :=
    Lifecycle.mem_unfinished_view.mpr ⟨hmem, rfl⟩
  have h := s.registry.releases cleanup.session
  unfold Lifecycle.drop
  generalize s.registry.releaseCleanup cleanup.session = r at h
  cases h with
  | requeue e reason hent hsess hrng =>
    refine .of_view ?_ (.release hent hrng hqt hview hsess) id
      (le_max_of_le_left (len_setEntry hent _).le)
    rw [Lifecycle.view, view_erase, view_requeued]
    simp [toPhase, Lifecycle.view, hsess]
  | leave hstl =>
    refine .of_view (view_erase ..) (.dispose hqt hview ?_) id (le_max_left _ _)
    rintro ⟨e, reason, hent, hsess, hrng⟩
    exact hstl e hent hsess reason hrng

theorem finish_turn (hmem : cleanup ∈ s.unfinished) :
    RegistryTurn cfg (.finish cleanup (s.finish cleanup).1) cleanup.session.clientId s
      (s.finish cleanup).2 := by
  have hview : cleanup ∈ (s.view cleanup.session.clientId).unfinished :=
    Lifecycle.mem_unfinished_view.mpr ⟨hmem, rfl⟩
  have h := s.registry.finishes cleanup.session
  unfold Lifecycle.finish
  generalize s.registry.finishCleanup cleanup.session = finished at h
  obtain ⟨_, _⟩ := finished
  dsimp only at h
  cases h with
  | absent hent =>
    refine .of_view (view_erase ..) (.dispose ⟨rfl, fun _ => rfl⟩ hview ?_) id (le_max_left _ _)
    rintro ⟨e, reason, he, -, -⟩
    cases hent.symm.trans he
  | remove e reason hent hsess hrng =>
    refine .of_view ?_ (.finish ⟨rfl, fun _ => rfl⟩ hview ⟨e, reason, hent, hsess, hrng⟩) id
      (le_max_of_le_left (len_removeEntry_le _ _))
    change view _ _ = _
    rw [view_erase, view_removeEntry]
    simp [Lifecycle.view]
  | refuse e err hent hstl => exact drop_turn ⟨rfl, fun _ => rfl⟩ hmem

/-! ### The scan for due cleanups -/

theorem claimEntry_of_eq {e : ClientEntry}
    (h : e.phase = .cleanupPending reason expected) : r.claimEntry c e expected =
      (some ⟨e.session, reason⟩, r.setEntry c { e with phase := .cleanupPending reason .running }) := by
  simp [claimEntry, ClientEntry.claimCleanup, h]

theorem claimEntry_of_ne {e : ClientEntry}
    (h : ∀ reason, e.phase ≠ .cleanupPending reason expected) :
    r.claimEntry c e expected = (none, r) := by
  unfold claimEntry ClientEntry.claimCleanup
  cases hph : e.phase with
  | active => rfl
  | cleanupPending reason claim =>
    have hclaim : claim ≠ expected := by
      rintro rfl
      exact h reason hph
    simp [hclaim]

theorem takeReady_turn {session : ClientSession} {rest : List ClientSession} (hqt : event.Quiet)
    (h : s.registry.cleanupReady = session :: rest) :
    RegistryTurn cfg event session.clientId s ⟨(s.registry.takeReady session rest).2,
      s.unfinished ++ (s.registry.takeReady session rest).1.toList⟩ := by
  obtain ⟨hrdy, hpop⟩ := s.registry.view_popReady s.unfinished h
  -- a session that is only taken out of the queue
  have hdrop : (s.view session.clientId).StaleReady session → RegistryTurn cfg event
      session.clientId s ⟨{ s.registry with cleanupReady := rest }, s.unfinished ++ []⟩ := by
    intro hstl
    rw [List.append_nil]
    exact .of_view hpop (.dropReady hqt hrdy hstl) id (le_max_left _ _)
  unfold takeReady
  cases hent : s.registry.entries.lookup session.clientId with
  | none =>
    simp only [hent]
    refine hdrop fun e reason he => ?_
    cases hent.symm.trans he
  | some e =>
    simp only [hent]
    by_cases hsess : e.session = session
    · subst hsess
      rw [if_pos rfl]
      by_cases hqd : ∃ reason, e.phase = .cleanupPending reason .queued
      · obtain ⟨reason, hph⟩ := hqd
        rw [claimEntry_of_eq hph]
        refine .of_view ?_ (.claimQueued hent hph hqt hrdy) id
          (le_max_of_le_left (len_setEntry hent _).le)
        change view _ (s.unfinished ++ [_]) = _
        rw [view_claimed, hpop]
        simp [claimed, toPhase, Lifecycle.view]
      · rw [claimEntry_of_ne (not_exists.mp hqd)]
        refine hdrop fun e' reason he' _ hph => ?_
        cases hent.symm.trans he'
        exact hqd ⟨reason, hph⟩
    · rw [if_neg hsess]
      refine hdrop fun e' reason he' h => ?_
      cases hent.symm.trans he'
      exact absurd h hsess

theorem takeDue_turn {record : DeadlineRecord} (howd : s.Owned)
    (hqt : event.Quiet) (hnow : event.now = some now) (h : s.registry.deadlines = record :: rest) :
    RegistryTurn cfg event record.clientId s ⟨(s.registry.takeDue now record rest).2,
      s.unfinished ++ (s.registry.takeDue now record rest).1.toList⟩ := by
  obtain ⟨hrec, hpop⟩ := s.registry.view_popDeadline s.unfinished h
  have hrest : s.Ordered → (⟨{ s.registry with deadlines := rest }, s.unfinished⟩ : Lifecycle).Ordered := by
    intro hordered
    rw [Lifecycle.Ordered, h] at hordered
    exact hordered.of_cons
  -- a record that is only taken out of the heap
  have hdrop : (s.view record.clientId).StaleRecord record.generation → RegistryTurn cfg event
      record.clientId s ⟨{ s.registry with deadlines := rest }, s.unfinished ++ []⟩ := by
    intro hstl
    rw [List.append_nil]
    exact .of_view hpop (.dropRecord hqt hrec hstl) hrest (le_max_left _ _)
  unfold takeDue
  cases hent : s.registry.entries.lookup record.clientId with
  | none =>
    simp only [hent]
    refine hdrop fun e he => ?_
    cases hent.symm.trans he
  | some e =>
    have hcl : e.session.clientId = record.clientId := howd _ _ hent
    simp only [hent]
    by_cases hgen : e.session.generation = record.generation
    · rw [if_neg (not_not.mpr hgen)]
      cases hph : e.phase with
      | active =>
        dsimp only
        split
        · rw [Option.toList_none, List.append_nil]
          refine .of_view ?_ (.requeue hent hph hqt hrec hgen)
            (fun hordered => (hrest hordered).pushDeadline _) (le_max_left _ _)
          change view _ s.unfinished = _
          rw [view_pushDeadline, hpop]
          simp [Lifecycle.view]
        next hdue =>
        rw [claimEntry_of_eq rfl]
        refine .of_view ?_ (.due hent hph hqt hnow (Nat.le_of_not_lt hdue) hrec hgen) hrest ?_
        · change view _ (s.unfinished ++ [_]) = _
          rw [← hcl, ClientEntry.fence, view_claimed _ _
            { e with phase := .cleanupPending .heartbeatExpired .ready }, view_fenceEntry _ _ rfl, hcl, hpop]
          simp [claimed, toPhase, fenced, Lifecycle.view]
        · refine le_max_of_le_left (le_of_eq ?_)
          have hfenced := len_setEntry hent (e.fence .heartbeatExpired)
          rw [len_setEntry (e := e.fence .heartbeatExpired), ← hfenced]
          · rfl
          · exact lookup_insert _
      | cleanupPending reason claim =>
        by_cases hrdy : reason = .heartbeatExpired ∧ claim = .ready
        · obtain ⟨rfl, rfl⟩ := hrdy
          dsimp only
          rw [claimEntry_of_eq hph]
          refine .of_view ?_ (.dueReady hent hph hqt hrec) hrest
            (le_max_of_le_left (len_setEntry hent _).le)
          change view _ (s.unfinished ++ [_]) = _
          rw [← hcl, view_claimed, hcl, hpop]
          simp [claimed, toPhase, Lifecycle.view]
        have hstl : (s.view record.clientId).StaleRecord record.generation := by
          intro e' he' _
          cases hent.symm.trans he'
          rw [hph]
          refine ⟨(by simp), fun h => ?_⟩
          cases h
          exact hrdy ⟨rfl, rfl⟩
        cases reason with
        | heartbeatExpired =>
          dsimp only
          rw [claimEntry_of_ne]
          · exact hdrop hstl
          · intro reason h
            cases hph.symm.trans h
            exact hrdy ⟨rfl, rfl⟩
        | gracefulUnmount | serverShutdown => exact hdrop hstl
    · rw [if_pos hgen]
      refine hdrop fun e' he' h => ?_
      cases hent.symm.trans he'
      exact absurd h hgen

abbrev Turns (cfg : ClientLifecycleConfig) (event : RegistryEvent) : Lifecycle → Lifecycle → Prop :=
  Relation.ReflTransGen fun s s' => ∃ c, RegistryTurn cfg event c s s'

theorem claimReady_turns (hqt : event.Quiet) (unfinished : List ClientCleanup)
    (budget : ℕ) (r : RegistryState) (cleanups : List ClientCleanup) :
    Turns cfg event ⟨r, unfinished ++ cleanups⟩
      ⟨(r.claimReady budget cleanups).2.2, unfinished ++ (r.claimReady budget cleanups).2.1⟩ := by
  induction budget generalizing r cleanups with
  | zero => exact .refl
  | succ budget ih =>
    unfold claimReady
    cases hrdy : r.cleanupReady with
    | nil => exact .refl
    | cons session rest =>
      have hturn : RegistryTurn cfg event session.clientId ⟨r, unfinished ++ cleanups⟩ _ :=
        takeReady_turn hqt hrdy
      rw [List.append_assoc] at hturn
      exact .head ⟨_, hturn⟩ (ih _ _)

theorem SessionTurn.owned (h : SessionTurn cfg event c next v next' v')
    (howd : ∀ e, v.entry = some e → e.session.clientId = c) :
    ∀ e, v'.entry = some e → e.session.clientId = c := by
  cases h with
  | create _ hcl =>
    rintro _ ⟨⟩
    exact hcl
  | refresh hent | expire hent | drain hent | claim hent | claimQueued hent | due hent
  | dueReady hent | release hent =>
    have hcl := howd _ hent
    rintro _ ⟨⟩
    exact hcl
  | rollback | finish => exact nofun
  | dropReady | requeue | dropRecord | dispose => exact howd

theorem RegistryTurn.owned (h : RegistryTurn cfg event c s s') (howd : s.Owned) : s'.Owned := by
  intro c' e he
  by_cases hc : c' = c
  · subst hc
    exact h.turn.owned (howd c') e he
  · have hsame : s'.entry c' = s.entry c' := congrArg entry (h.others c' hc)
    exact howd c' e (hsame ▸ he)

theorem claimExpired_turns (hqt : event.Quiet) (hnow : event.now = some now)
    (unfinished : List ClientCleanup) (budget : ℕ) (r : RegistryState)
    (cleanups : List ClientCleanup) (howd : (⟨r, unfinished ++ cleanups⟩ : Lifecycle).Owned) :
    Turns cfg event ⟨r, unfinished ++ cleanups⟩
      ⟨(r.claimExpired now budget cleanups).2.2, unfinished ++ (r.claimExpired now budget cleanups).2.1⟩ := by
  induction budget generalizing r cleanups with
  | zero => exact .refl
  | succ budget ih =>
    unfold claimExpired
    cases hdls : r.deadlines with
    | nil => exact .refl
    | cons record rest =>
      dsimp only
      split
      · exact .refl
      · have hturn : RegistryTurn cfg event record.clientId ⟨r, unfinished ++ cleanups⟩ _ :=
          takeDue_turn howd hqt hnow hdls
        rw [List.append_assoc] at hturn
        exact .head ⟨_, hturn⟩ (ih _ _ (hturn.owned howd))

theorem Turns.owned (h : Turns cfg event s s') (howd : s.Owned) : s'.Owned := by
  induction h with
  | refl => exact howd
  | tail _ hturn ih =>
    obtain ⟨_, hturn⟩ := hturn
    exact hturn.owned ih

theorem scan_turns (hqt : event.Quiet) (hnow : event.now = some now) (howd : s.Owned)
    (budget : ℕ) : Turns cfg event s (s.claimDueCleanups cfg now budget).2 := by
  have hrdy : Turns cfg event ⟨s.registry, s.unfinished ++ []⟩ _ :=
    claimReady_turns hqt s.unfinished (min budget cfg.cleanupScanBudget) s.registry []
  rw [List.append_nil] at hrdy
  exact hrdy.trans (claimExpired_turns hqt hnow s.unfinished _ _ _ (Turns.owned hrdy howd))

/-- Every operation is one turn, or some turns that neither make nor refresh a session. -/
theorem Performs.turns (h : Performs cfg s event s') (howd : s.Owned) :
    event.Quiet ∧ Turns cfg event s s' ∨ ∃ c, RegistryTurn cfg event c s s' := by
  have hsettles : ∀ {c}, Settles cfg event c s s' →
      event.Quiet ∧ Turns cfg event s s' ∨ ∃ c, RegistryTurn cfg event c s s' := by
    rintro c (⟨hqt, rfl⟩ | hturn)
    · exact .inl ⟨hqt, .refl⟩
    · exact .inr ⟨c, hturn⟩
  cases h with
  | activate clientId now => exact hsettles (activate_settles howd clientId now)
  | heartbeat clientId now => exact hsettles (heartbeat_settles howd clientId now)
  | rollbackActivation session => exact hsettles (rollback_settles session)
  | beginDrain session reason => exact hsettles (drain_settles session reason)
  | claimDueCleanups now budget =>
    exact .inl ⟨⟨rfl, fun _ => rfl⟩, scan_turns ⟨rfl, fun _ => rfl⟩ rfl howd budget⟩
  | finish cleanup hmem => exact .inr ⟨_, finish_turn hmem⟩
  | drop cleanup hmem => exact .inr ⟨_, drop_turn ⟨rfl, fun _ => rfl⟩ hmem⟩

end Operations

end Cakemaster.Client
