import Cakemaster.Client.Registry
import Mathlib.Data.Multiset.Filter

/-!
# Runs of the registry

The registry together with the cleanups that are in existence, and its runs: any
sequence of operations, with what each of them answered. A `ClientCleanup` comes into
being when a claim returns it and ends by being finished or dropped.
-/

namespace Cakemaster.Client

open Machine Segment Function Multiset
open Object (ClientSession)

structure Lifecycle where
  registry : RegistryState
  unfinished : List ClientCleanup

namespace Lifecycle

def new : Lifecycle := ⟨.new, []⟩

def entry (s : Lifecycle) (c : ClientId) : Option ClientEntry := s.registry.entries.lookup c

/-- The session is the active one of its client. -/
def Active (s : Lifecycle) (session : ClientSession) : Prop :=
  ∃ e, s.entry session.clientId = some e ∧ e.session = session ∧ e.phase = .active

def activate (cfg : ClientLifecycleConfig) (clientId : ClientId) (now : ClientTick)
    (s : Lifecycle) : Except ClientLifecycleError ActivateOutcome × Lifecycle :=
  let result := s.registry.activate cfg clientId now
  (result.1, { s with registry := result.2 })

def heartbeat (cfg : ClientLifecycleConfig) (clientId : ClientId) (now : ClientTick)
    (s : Lifecycle) : HeartbeatOutcome × Lifecycle :=
  let result := s.registry.heartbeat cfg clientId now
  (result.1, { s with registry := result.2 })

def rollbackActivation (session : ClientSession) (s : Lifecycle) :
    Except ClientLifecycleError Unit × Lifecycle :=
  let result := s.registry.rollbackActivation session
  (result.1, { s with registry := result.2 })

def beginDrain (session : ClientSession) (reason : CleanupReason) (s : Lifecycle) :
    Except ClientLifecycleError (Option ClientCleanup) × Lifecycle :=
  match s.registry.beginDrain session reason with
  | (.ok cleanup, registry) => (.ok cleanup, ⟨registry, s.unfinished ++ cleanup.toList⟩)
  | (.error err, registry) => (.error err, ⟨registry, s.unfinished⟩)

def claimDueCleanups (cfg : ClientLifecycleConfig) (now : ClientTick) (budget : ℕ) (s : Lifecycle) :
    List ClientCleanup × Lifecycle :=
  let result := s.registry.claimDueCleanups cfg now budget
  (result.1, ⟨result.2, s.unfinished ++ result.1⟩)

/-- `Drop for ClientCleanup`, of a cleanup that is not finished. -/
def drop (cleanup : ClientCleanup) (s : Lifecycle) : Lifecycle :=
  ⟨s.registry.releaseCleanup cleanup.session, s.unfinished.erase cleanup⟩

/-- `ClientCleanup::finish`, which drops the cleanup when it fails. -/
def finish (cleanup : ClientCleanup) (s : Lifecycle) :
    Except ClientLifecycleError Unit × Lifecycle :=
  match s.registry.finishCleanup cleanup.session with
  | (.ok (), registry) => (.ok (), ⟨registry, s.unfinished.erase cleanup⟩)
  | (.error err, registry) => (.error err, drop cleanup ⟨registry, s.unfinished⟩)

end Lifecycle

/-- An operation on the registry and its answer. -/
inductive RegistryEvent
  | activate (clientId : ClientId) (now : ClientTick)
      (result : Except ClientLifecycleError ActivateOutcome)
  | heartbeat (clientId : ClientId) (now : ClientTick) (outcome : HeartbeatOutcome)
  | rollbackActivation (session : ClientSession) (result : Except ClientLifecycleError Unit)
  | beginDrain (session : ClientSession) (reason : CleanupReason)
      (result : Except ClientLifecycleError (Option ClientCleanup))
  | claimDueCleanups (now : ClientTick) (budget : ℕ) (cleanups : List ClientCleanup)
  | finish (cleanup : ClientCleanup) (result : Except ClientLifecycleError Unit)
  | drop (cleanup : ClientCleanup)

namespace RegistryEvent

/-- The generation that the event has handed out. -/
def handedOut : RegistryEvent → Option ℕ
  | activate _ _ (.ok (.activated session)) => some session.generation
  | _ => none

/-- The time of a successful activation or heartbeat of the session. -/
def refreshes (session : ClientSession) : RegistryEvent → Option ClientTick
  | activate _ now (.ok outcome) => if outcome.session = session then some now else none
  | heartbeat _ now (.alive current) => if current = session then some now else none
  | _ => none

def now : RegistryEvent → Option ClientTick
  | activate _ now _ | heartbeat _ now _ | claimDueCleanups now _ _ => some now
  | _ => none

end RegistryEvent

/-- An operation on the registry. A cleanup can be finished or dropped while it exists. -/
inductive Performs (cfg : ClientLifecycleConfig) (s : Lifecycle) : RegistryEvent → Lifecycle → Prop
  | activate (clientId : ClientId) (now : ClientTick) :
      Performs cfg s (.activate clientId now (s.activate cfg clientId now).1) (s.activate cfg clientId now).2
  | heartbeat (clientId : ClientId) (now : ClientTick) :
      Performs cfg s (.heartbeat clientId now (s.heartbeat cfg clientId now).1) (s.heartbeat cfg clientId now).2
  | rollbackActivation (session : ClientSession) :
      Performs cfg s (.rollbackActivation session (s.rollbackActivation session).1)
        (s.rollbackActivation session).2
  | beginDrain (session : ClientSession) (reason : CleanupReason) :
      Performs cfg s (.beginDrain session reason (s.beginDrain session reason).1)
        (s.beginDrain session reason).2
  | claimDueCleanups (now : ClientTick) (budget : ℕ) :
      Performs cfg s (.claimDueCleanups now budget (s.claimDueCleanups cfg now budget).1)
        (s.claimDueCleanups cfg now budget).2
  | finish (cleanup : ClientCleanup) (h : cleanup ∈ s.unfinished) :
      Performs cfg s (.finish cleanup (s.finish cleanup).1) (s.finish cleanup).2
  | drop (cleanup : ClientCleanup) (h : cleanup ∈ s.unfinished) :
      Performs cfg s (.drop cleanup) (s.drop cleanup)

/-- The runs of a registry, with their events in order. -/
inductive History (cfg : ClientLifecycleConfig) : List RegistryEvent → Lifecycle → Prop
  | new : History cfg [] .new
  | step (h : History cfg events s) (hstep : Performs cfg s event s') :
      History cfg (events ++ [event]) s'

/-! ### One client -/

/-- What there is of one client. -/
structure SessionView where
  entry : Option ClientEntry
  records : Multiset DeadlineRecord
  ready : Multiset ClientSession
  unfinished : Multiset ClientCleanup
  active : ClientSession → Bool

namespace RegistryState

variable (r : RegistryState) (unfinished : List ClientCleanup) (c : ClientId)

def view (unfinished : List ClientCleanup) (c : ClientId) : SessionView where
  entry := r.entries.lookup c
  records := (r.deadlines : Multiset DeadlineRecord).filter (·.clientId = c)
  ready := (r.cleanupReady : Multiset ClientSession).filter (·.clientId = c)
  unfinished := (unfinished : Multiset ClientCleanup).filter (·.session.clientId = c)
  active session := decide (session.clientId = c) && r.activeSessions session

theorem view_setEntry (e : ClientEntry) : (r.setEntry c e).view unfinished =
    update (r.view unfinished) c { r.view unfinished c with entry := some e } := by
  funext c'
  by_cases hc : c' = c
  · subst hc
    simp [view, setEntry]
  · simp [view, setEntry, hc]

theorem view_removeEntry : (r.removeEntry c).view unfinished =
    update (r.view unfinished) c { r.view unfinished c with entry := none } := by
  funext c'
  by_cases hc : c' = c
  · subst hc
    simp [view, removeEntry]
  · simp [view, removeEntry, hc]

theorem view_invalidate (session : ClientSession) : (r.invalidate session).view unfinished =
    update (r.view unfinished) session.clientId { r.view unfinished session.clientId with
      active := update (r.view unfinished session.clientId).active session false } := by
  funext c'
  by_cases hc : c' = session.clientId
  · subst hc
    simp only [view, invalidate, update_self, SessionView.mk.injEq, true_and]
    funext x
    by_cases hx : x = session <;> simp [hx]
  · simp only [view, invalidate, update_of_ne hc, SessionView.mk.injEq, true_and]
    funext x
    by_cases hx : x = session
    · simp [hx, Ne.symm hc]
    · simp [hx]

theorem view_pushDeadline (record : DeadlineRecord) : (r.pushDeadline record).view unfinished =
    update (r.view unfinished) record.clientId { r.view unfinished record.clientId with
      records := record ::ₘ (r.view unfinished record.clientId).records } := by
  have hperm : ((r.pushDeadline record).deadlines : Multiset DeadlineRecord) = record ::ₘ
    r.deadlines :=
    coe_eq_coe.mpr (List.perm_orderedInsert _ _ _)
  funext c'
  by_cases hc : c' = record.clientId
  · subst hc
    simp only [view, hperm, update_self, filter_cons_of_pos]
    rfl
  · have hrec : filter (·.clientId = c') (record ::ₘ (r.deadlines : Multiset DeadlineRecord)) =
        filter (·.clientId = c') r.deadlines := filter_cons_of_neg _ (Ne.symm hc)
    simp only [view, hperm, update_of_ne hc, hrec]
    rfl

theorem view_popDeadline (h : r.deadlines = record :: rest) :
    (r.view unfinished record.clientId).records =
    record ::ₘ (({ r with deadlines := rest }).view unfinished record.clientId).records ∧
    ({ r with deadlines := rest }).view unfinished = update (r.view unfinished) record.clientId
      { r.view unfinished record.clientId with
        records := (({ r with deadlines := rest }).view unfinished record.clientId).records } := by
  refine ⟨by simp [view, h, ← cons_coe], ?_⟩
  funext c'
  by_cases hc : c' = record.clientId
  · subst hc
    simp [view]
  · simp [view, h, ← cons_coe, hc, Ne.symm hc]

theorem view_popReady (h : r.cleanupReady = session :: rest) :
    (r.view unfinished session.clientId).ready =
    session ::ₘ (({ r with cleanupReady := rest }).view unfinished session.clientId).ready ∧
    ({ r with cleanupReady := rest }).view unfinished = update (r.view unfinished) session.clientId
      { r.view unfinished session.clientId with
        ready := (({ r with cleanupReady := rest }).view unfinished session.clientId).ready } := by
  refine ⟨by simp [view, h, ← cons_coe], ?_⟩
  funext c'
  by_cases hc : c' = session.clientId
  · subst hc
    simp [view]
  · simp [view, h, ← cons_coe, hc, Ne.symm hc]

theorem view_pushReady (session : ClientSession) :
    ({ r with cleanupReady := r.cleanupReady ++ [session] }).view unfinished =
    update (r.view unfinished) session.clientId { r.view unfinished session.clientId with
      ready := session ::ₘ (r.view unfinished session.clientId).ready } := by
  have hperm : ((r.cleanupReady ++ [session] : List ClientSession) : Multiset ClientSession) =
      session ::ₘ r.cleanupReady := coe_eq_coe.mpr (List.perm_append_singleton _ _)
  funext c'
  by_cases hc : c' = session.clientId
  · subst hc
    simp only [view, hperm, update_self, filter_cons_of_pos]
  · have hrdy : filter (·.clientId = c') (session ::ₘ (r.cleanupReady : Multiset ClientSession)) =
        filter (·.clientId = c') r.cleanupReady := filter_cons_of_neg _ (Ne.symm hc)
    simp only [view, hperm, update_of_ne hc, hrdy]

theorem view_append (cleanup : ClientCleanup) : r.view (unfinished ++ [cleanup]) =
    update (r.view unfinished) cleanup.session.clientId { r.view unfinished cleanup.session.clientId with
      unfinished := cleanup ::ₘ (r.view unfinished cleanup.session.clientId).unfinished } := by
  have hperm : ((unfinished ++ [cleanup] : List ClientCleanup) : Multiset ClientCleanup) =
      cleanup ::ₘ unfinished :=
    coe_eq_coe.mpr (List.perm_append_singleton _ _)
  funext c'
  by_cases hc : c' = cleanup.session.clientId
  · subst hc
    simp only [view, hperm, update_self, filter_cons_of_pos]
  · have hrest : filter (·.session.clientId = c') (cleanup ::ₘ (unfinished : Multiset ClientCleanup)) =
        filter (·.session.clientId = c') unfinished := filter_cons_of_neg _ (Ne.symm hc)
    simp only [view, hperm, update_of_ne hc, hrest]

theorem view_erase (cleanup : ClientCleanup) : r.view (unfinished.erase cleanup) =
    update (r.view unfinished) cleanup.session.clientId { r.view unfinished cleanup.session.clientId with
      unfinished := (r.view unfinished cleanup.session.clientId).unfinished.erase cleanup } := by
  have hmem : ∀ c', (filter (·.session.clientId = c') (unfinished.erase cleanup : Multiset ClientCleanup)) =
      (filter (·.session.clientId = c') (unfinished : Multiset ClientCleanup)).erase cleanup := by
    intro c'
    ext x
    rw [← coe_erase]
    by_cases hx : x = cleanup
    · subst hx
      simp only [count_filter, count_erase_self]
      split <;> rfl
    · simp only [count_filter, count_erase_of_ne hx]
  funext c'
  by_cases hc : c' = cleanup.session.clientId
  · subst hc
    simp only [view, hmem, update_self]
  · have hnot : cleanup ∉ filter (·.session.clientId = c') (unfinished : Multiset ClientCleanup) :=
      fun h => hc (mem_filter.mp h).2.symm
    simp only [view, hmem, update_of_ne hc, erase_of_notMem hnot]

end RegistryState

end Cakemaster.Client
