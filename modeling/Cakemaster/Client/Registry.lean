import Cakemaster.Object.Types
import Mathlib.Data.List.AList
import Mathlib.Data.List.Sort

/-!
# The registry of client sessions

The lifecycle of client sessions: activation, heartbeats, fencing, and the claims of
cleanup work. Each function is the source's section under the registry's mutex. The
heap of deadlines is the sorted list of its records; a session's guard is known by its
session, since generations are not reused.
-/

namespace Cakemaster.Client

open Machine Segment Bool
open Object (ClientSession)

abbrev ClientTick := ℕ

inductive ClientState
  | active
  | draining
  | expired
deriving DecidableEq

inductive ActivateOutcome
  | activated (session : ClientSession)
  | alreadyActive (session : ClientSession)
deriving DecidableEq

def ActivateOutcome.session : ActivateOutcome → ClientSession
  | activated session | alreadyActive session => session

inductive HeartbeatOutcome
  | alive (session : ClientSession)
  | needRemount
deriving DecidableEq

inductive CleanupReason
  | gracefulUnmount
  | heartbeatExpired
  | serverShutdown
deriving DecidableEq

/-- Exclusive ownership of the cleanup of one fenced session. -/
structure ClientCleanup where
  session : ClientSession
  reason : CleanupReason
deriving DecidableEq

/-! ### Configuration and errors -/

structure ClientLifecycleConfig where
  ttlTicks : ℕ
  maxClients : ℕ
  cleanupScanBudget : ℕ
deriving DecidableEq

inductive ClientLifecycleError
  | nilClientId
  | capacityExceeded (maxClients : ℕ)
  | cleanupInProgress (state : ClientState)
  | clientNotActive
  | cleanupNotStarted
  | staleSession
  | generationExhausted
deriving DecidableEq

/-! ### Entries -/

inductive CleanupClaimState
  | ready
  | queued
  | running
deriving DecidableEq

inductive ClientPhase
  | active
  | cleanupPending (reason : CleanupReason) (claim : CleanupClaimState)
deriving DecidableEq

structure ClientEntry where
  session : ClientSession
  phase : ClientPhase
  expiresAt : ClientTick
deriving DecidableEq

namespace ClientEntry

def state (e : ClientEntry) : ClientState :=
  match e.phase with
  | .active => .active
  | .cleanupPending .heartbeatExpired _ => .expired
  | .cleanupPending .. => .draining

def isActive (e : ClientEntry) : Bool := e.phase = .active

def ensureSession (e : ClientEntry) (session : ClientSession) : Except ClientLifecycleError Unit :=
  if e.session = session then .ok () else .error .staleSession

def refresh (e : ClientEntry) (now : ClientTick) (ttlTicks : ℕ) : ClientEntry :=
  { e with expiresAt := max e.expiresAt (Word.satAdd 64 now ttlTicks) }

/-- Also `mark_expired`, whose reason is `HeartbeatExpired`. -/
def fence (e : ClientEntry) (reason : CleanupReason) : ClientEntry :=
  { e with phase := .cleanupPending reason .ready }

def claimCleanup (e : ClientEntry) (expected : CleanupClaimState) :
    Option (ClientCleanup × ClientEntry) :=
  match e.phase with
  | .active => none
  | .cleanupPending reason claim =>
    if claim ≠ expected then none
    else some (⟨e.session, reason⟩, { e with phase := .cleanupPending reason .running })

def cleanupIsRunning (e : ClientEntry) : Bool :=
  match e.phase with
  | .cleanupPending _ .running => true
  | _ => false

def queueRunningCleanup (e : ClientEntry) : Option ClientEntry :=
  match e.phase with
  | .cleanupPending reason .running => some { e with phase := .cleanupPending reason .queued }
  | _ => none

end ClientEntry

structure DeadlineRecord where
  expiresAt : ClientTick
  clientId : ClientId
  generation : ℕ
deriving DecidableEq

/-- The derived lexicographic order, by which the heap is ordered. -/
def DeadlineRecord.le (a b : DeadlineRecord) : Bool :=
  a.expiresAt < b.expiresAt ∨ a.expiresAt = b.expiresAt ∧
    (a.clientId.high < b.clientId.high ∨ a.clientId.high = b.clientId.high ∧
      (a.clientId.low < b.clientId.low ∨ a.clientId.low = b.clientId.low ∧ a.generation ≤ b.generation))

structure RegistryState where
  entries : AList fun _ : ClientId => ClientEntry
  deadlines : List DeadlineRecord
  cleanupReady : List ClientSession
  nextGeneration : ℕ
  nextGeneration_pos : 0 < nextGeneration
  -- the flags of the session guards
  activeSessions : ClientSession → Bool

namespace RegistryState

def new : RegistryState := ⟨∅, [], [], 1, Nat.one_pos, fun _ => false⟩

def len (r : RegistryState) : ℕ := r.entries.keys.length

def state (r : RegistryState) (clientId : ClientId) : Option ClientState :=
  (r.entries.lookup clientId).map (·.state)

def setEntry (clientId : ClientId) (e : ClientEntry) (r : RegistryState) : RegistryState :=
  { r with entries := r.entries.insert clientId e }

def removeEntry (clientId : ClientId) (r : RegistryState) : RegistryState :=
  { r with entries := r.entries.erase clientId }

/-- `ClientSessionGuard::invalidate`. -/
def invalidate (session : ClientSession) (r : RegistryState) : RegistryState :=
  { r with activeSessions := Function.update r.activeSessions session false }

def pushDeadline (record : DeadlineRecord) (r : RegistryState) : RegistryState :=
  { r with deadlines := r.deadlines.orderedInsert (fun a b => a.le b) record }

def fenceEntry (clientId : ClientId) (e : ClientEntry) (reason : CleanupReason)
    (r : RegistryState) : RegistryState :=
  (r.setEntry clientId (e.fence reason)).invalidate e.session

def insertSession (clientId : ClientId) (next : ℕ) (hnext : 0 < next) (expiresAt : ClientTick)
    (r : RegistryState) : ClientSession × RegistryState :=
  let session : ClientSession := ⟨clientId, r.nextGeneration, r.nextGeneration_pos⟩
  (session, ({ r with
    entries := r.entries.insert clientId ⟨session, .active, expiresAt⟩
    nextGeneration := next
    nextGeneration_pos := hnext
    activeSessions := Function.update r.activeSessions session true }).pushDeadline
      ⟨expiresAt, clientId, r.nextGeneration⟩)

def activate (cfg : ClientLifecycleConfig) (clientId : ClientId) (now : ClientTick)
    (r : RegistryState) : Except ClientLifecycleError ActivateOutcome × RegistryState :=
  if clientId.isNil then (.error .nilClientId, r)
  else
    match r.entries.lookup clientId with
    | some e =>
      if !e.isActive then (.error (.cleanupInProgress e.state), r)
      else if e.expiresAt ≤ now then
        (.error (.cleanupInProgress .expired), r.fenceEntry clientId e .heartbeatExpired)
      else (.ok (.alreadyActive e.session), r.setEntry clientId (e.refresh now cfg.ttlTicks))
    | none =>
      if cfg.maxClients ≤ r.len then (.error (.capacityExceeded cfg.maxClients), r)
      else if r.nextGeneration + 1 < 2 ^ 64 then
        let (session, r) := r.insertSession clientId (r.nextGeneration + 1) (Nat.succ_pos _)
          (Word.satAdd 64 now cfg.ttlTicks)
        (.ok (.activated session), r)
      else (.error .generationExhausted, r)

def heartbeat (cfg : ClientLifecycleConfig) (clientId : ClientId) (now : ClientTick)
    (r : RegistryState) : HeartbeatOutcome × RegistryState :=
  match r.entries.lookup clientId with
  | none => (.needRemount, r)
  | some e =>
    if !e.isActive then (.needRemount, r)
    else if e.expiresAt ≤ now then (.needRemount, r.fenceEntry clientId e .heartbeatExpired)
    else (.alive e.session, r.setEntry clientId (e.refresh now cfg.ttlTicks))

/-- `active_session`, and `active_session_guard` whose guard is known by its session. -/
def activeSession (clientId : ClientId) (r : RegistryState) :
    Except ClientLifecycleError ClientSession :=
  if clientId.isNil then .error .nilClientId
  else
    match r.entries.lookup clientId with
    | none => .error .clientNotActive
    | some e => if e.isActive then .ok e.session else .error .clientNotActive

def rollbackActivation (session : ClientSession) (r : RegistryState) :
    Except ClientLifecycleError Unit × RegistryState :=
  match r.entries.lookup session.clientId with
  | none => (.error .clientNotActive, r)
  | some e =>
    match e.ensureSession session with
    | .error err => (.error err, r)
    | .ok () =>
      if !e.isActive then (.error (.cleanupInProgress e.state), r)
      else (.ok (), (r.invalidate e.session).removeEntry session.clientId)

/-- The claim of a cleanup that is in the expected state. -/
def claimEntry (clientId : ClientId) (e : ClientEntry) (expected : CleanupClaimState)
    (r : RegistryState) : Option ClientCleanup × RegistryState :=
  match e.claimCleanup expected with
  | none => (none, r)
  | some (cleanup, e) => (some cleanup, r.setEntry clientId e)

def beginDrain (session : ClientSession) (reason : CleanupReason) (r : RegistryState) :
    Except ClientLifecycleError (Option ClientCleanup) × RegistryState :=
  match r.entries.lookup session.clientId with
  | none => (.error .clientNotActive, r)
  | some e =>
    match e.ensureSession session with
    | .error err => (.error err, r)
    | .ok () =>
      let (cleanup, r) :=
        if e.isActive then
          (r.fenceEntry session.clientId e reason).claimEntry session.clientId (e.fence reason) .ready
        else r.claimEntry session.clientId e .ready
      (.ok cleanup, r)

/-! ### Due cleanups -/

/-- One round of the first loop of `claim_due_cleanups`: a queued session. -/
def takeReady (session : ClientSession) (rest : List ClientSession) (r : RegistryState) :
    Option ClientCleanup × RegistryState :=
  let r := { r with cleanupReady := rest }
  match r.entries.lookup session.clientId with
  | none => (none, r)
  | some e => if e.session = session then r.claimEntry session.clientId e .queued else (none, r)

/-- The first loop, with the budget that is left and the cleanups so far. -/
def claimReady : ℕ → RegistryState → List ClientCleanup → ℕ × List ClientCleanup × RegistryState
  | 0, r, cleanups => (0, cleanups, r)
  | budget + 1, r, cleanups =>
    match r.cleanupReady with
    | [] => (budget + 1, cleanups, r)
    | session :: rest =>
      let (cleanup, r) := r.takeReady session rest
      claimReady budget r (cleanups ++ cleanup.toList)

/-- One round of the second loop: the first deadline record is due. -/
def takeDue (now : ClientTick) (record : DeadlineRecord) (rest : List DeadlineRecord)
    (r : RegistryState) : Option ClientCleanup × RegistryState :=
  let r := { r with deadlines := rest }
  match r.entries.lookup record.clientId with
  | none => (none, r)
  | some e =>
    if e.session.generation ≠ record.generation then (none, r)
    else
      match e.phase with
      | .active =>
        if now < e.expiresAt then
          (none, r.pushDeadline ⟨e.expiresAt, record.clientId, record.generation⟩)
        else
          (r.fenceEntry record.clientId e .heartbeatExpired).claimEntry record.clientId
            (e.fence .heartbeatExpired) .ready
      | .cleanupPending .heartbeatExpired _ => r.claimEntry record.clientId e .ready
      | .cleanupPending .. => (none, r)

/-- The second loop. -/
def claimExpired (now : ClientTick) :
    ℕ → RegistryState → List ClientCleanup → ℕ × List ClientCleanup × RegistryState
  | 0, r, cleanups => (0, cleanups, r)
  | budget + 1, r, cleanups =>
    match r.deadlines with
    | [] => (budget + 1, cleanups, r)
    | record :: rest =>
      if now < record.expiresAt then (budget + 1, cleanups, r)
      else
        let (cleanup, r) := r.takeDue now record rest
        claimExpired now budget r (cleanups ++ cleanup.toList)

/-- Both loops, with the budget that is left over. -/
def scanCleanups (cfg : ClientLifecycleConfig) (now : ClientTick) (budget : ℕ) (r : RegistryState) :
    ℕ × List ClientCleanup × RegistryState :=
  let (left, cleanups, r) := claimReady (min budget cfg.cleanupScanBudget) r []
  claimExpired now left r cleanups

def claimDueCleanups (cfg : ClientLifecycleConfig) (now : ClientTick) (budget : ℕ)
    (r : RegistryState) : List ClientCleanup × RegistryState :=
  (r.scanCleanups cfg now budget).2

/-! ### The end of a cleanup -/

def finishCleanup (session : ClientSession) (r : RegistryState) :
    Except ClientLifecycleError Unit × RegistryState :=
  match r.entries.lookup session.clientId with
  | none => (.ok (), r)
  | some e =>
    match e.ensureSession session with
    | .error err => (.error err, r)
    | .ok () =>
      if !e.cleanupIsRunning then (.error .cleanupNotStarted, r)
      else (.ok (), r.removeEntry session.clientId)

def releaseCleanup (session : ClientSession) (r : RegistryState) : RegistryState :=
  match r.entries.lookup session.clientId with
  | none => r
  | some e =>
    if e.session ≠ session then r
    else
      match e.queueRunningCleanup with
      | none => r
      | some e =>
        { r.setEntry session.clientId e with cleanupReady := r.cleanupReady ++ [session] }

/-! ### What the operations do -/

section Cases

open ClientEntry

variable {cfg : ClientLifecycleConfig} {c : ClientId} {now : ClientTick}
variable (session : ClientSession) (r : RegistryState)

/-- What `activate` answers and leaves behind. -/
inductive Activates (cfg : ClientLifecycleConfig) (c : ClientId) (now : ClientTick)
    (r : RegistryState) :
    Except ClientLifecycleError ActivateOutcome → RegistryState → Prop
  | refuse (err : ClientLifecycleError)
      (hidle : c.isNil = true ∨ ∀ e, r.entries.lookup c = some e → e.phase ≠ .active) :
      Activates cfg c now r (.error err) r
  | expire (e : ClientEntry) (hent : r.entries.lookup c = some e) (hactv : e.phase = .active)
      (hdue : e.expiresAt ≤ now) :
      Activates cfg c now r (.error (.cleanupInProgress .expired)) (r.fenceEntry c e .heartbeatExpired)
  | refresh (e : ClientEntry) (hent : r.entries.lookup c = some e) (hactv : e.phase = .active)
      (hahead : now < e.expiresAt) :
      Activates cfg c now r (.ok (.alreadyActive e.session)) (r.setEntry c (e.refresh now cfg.ttlTicks))
  | create (hent : r.entries.lookup c = none) (hroom : r.len < cfg.maxClients) :
      Activates cfg c now r (.ok (.activated ⟨c, r.nextGeneration, r.nextGeneration_pos⟩))
        (r.insertSession c (r.nextGeneration + 1) (Nat.succ_pos _) (Word.satAdd 64 now cfg.ttlTicks)).2

theorem activates (cfg : ClientLifecycleConfig) (c : ClientId) (now : ClientTick)
    (r : RegistryState) :
    Activates cfg c now r (r.activate cfg c now).1 (r.activate cfg c now).2 := by
  unfold activate
  by_cases hnil : c.isNil = true
  · rw [if_pos hnil]
    exact .refuse _ (.inl hnil)
  rw [if_neg hnil]
  cases hent : r.entries.lookup c with
  | some e =>
    by_cases hactv : e.phase = .active
    · simp only [isActive, hactv, decide_true, Bool.not_true, Bool.false_eq_true, if_false]
      split
      case isTrue hdue => exact .expire e hent hactv hdue
      case isFalse hdue => exact .refresh e hent hactv (Nat.lt_of_not_le hdue)
    · simp only [isActive, hactv, decide_false, Bool.not_false, if_true]
      refine .refuse _ (.inr fun e' he' => ?_)
      cases hent.symm.trans he'
      exact hactv
  | none =>
    have hidle : ∀ e, r.entries.lookup c = some e → e.phase ≠ .active := by simp [hent]
    dsimp only
    split
    · exact .refuse _ (.inr hidle)
    next hroom =>
    split
    · exact .create hent (Nat.lt_of_not_le hroom)
    · exact .refuse _ (.inr hidle)

inductive Beats (cfg : ClientLifecycleConfig) (c : ClientId) (now : ClientTick)
    (r : RegistryState) :
    HeartbeatOutcome → RegistryState → Prop
  | ignore : Beats cfg c now r .needRemount r
  | expire (e : ClientEntry) (hent : r.entries.lookup c = some e) (hactv : e.phase = .active)
      (hdue : e.expiresAt ≤ now) :
      Beats cfg c now r .needRemount (r.fenceEntry c e .heartbeatExpired)
  | refresh (e : ClientEntry) (hent : r.entries.lookup c = some e) (hactv : e.phase = .active)
      (hahead : now < e.expiresAt) :
      Beats cfg c now r (.alive e.session) (r.setEntry c (e.refresh now cfg.ttlTicks))

theorem beats (cfg : ClientLifecycleConfig) (c : ClientId) (now : ClientTick) (r : RegistryState) :
    Beats cfg c now r (r.heartbeat cfg c now).1 (r.heartbeat cfg c now).2 := by
  unfold heartbeat
  cases hent : r.entries.lookup c with
  | none => exact .ignore
  | some e =>
    by_cases hactv : e.phase = .active
    · simp only [isActive, hactv, decide_true, Bool.not_true, Bool.false_eq_true, if_false]
      split
      case isTrue hdue => exact .expire e hent hactv hdue
      case isFalse hdue => exact .refresh e hent hactv (Nat.lt_of_not_le hdue)
    · simp only [isActive, hactv, decide_false, Bool.not_false, if_true]
      exact .ignore

/-- What `rollback_activation` answers and leaves behind. -/
inductive RollsBack (session : ClientSession) (r : RegistryState) :
    Except ClientLifecycleError Unit → RegistryState → Prop
  | refuse (err : ClientLifecycleError) : RollsBack session r (.error err) r
  | remove (e : ClientEntry) (hent : r.entries.lookup session.clientId = some e)
      (hsess : e.session = session) (hactv : e.phase = .active) :
      RollsBack session r (.ok ()) ((r.invalidate session).removeEntry session.clientId)

theorem rollsBack :
    RollsBack session r (r.rollbackActivation session).1 (r.rollbackActivation session).2 := by
  unfold rollbackActivation
  cases hent : r.entries.lookup session.clientId with
  | none => exact .refuse _
  | some e =>
    by_cases hsess : e.session = session
    · by_cases hactv : e.phase = .active
      · simp only [ensureSession, isActive, hactv, decide_true, hsess, if_true,
          Bool.not_true, Bool.false_eq_true, if_false]
        exact .remove e hent hsess hactv
      · simp only [ensureSession, isActive, hactv, decide_false, hsess, if_true,
          Bool.not_false]
        exact .refuse _
    · simp only [ensureSession, hsess, if_false]
      exact .refuse _

inductive Drains (session : ClientSession) (reason : CleanupReason) (r : RegistryState) :
    Except ClientLifecycleError (Option ClientCleanup) → RegistryState → Prop
  | refuse (err : ClientLifecycleError) : Drains session reason r (.error err) r
  | fence (e : ClientEntry) (hent : r.entries.lookup session.clientId = some e)
      (hsess : e.session = session) (hactv : e.phase = .active) :
      Drains session reason r (.ok (some ⟨session, reason⟩)) ((r.fenceEntry session.clientId e reason).setEntry
        session.clientId { e with phase := .cleanupPending reason .running })
  | claim (e : ClientEntry) (old : CleanupReason)
      (hent : r.entries.lookup session.clientId = some e) (hsess : e.session = session)
      (hrdy : e.phase = .cleanupPending old .ready) :
      Drains session reason r (.ok (some ⟨session, old⟩))
        (r.setEntry session.clientId { e with phase := .cleanupPending old .running })
  | leave (e : ClientEntry) (hent : r.entries.lookup session.clientId = some e)
      (hsess : e.session = session) (hactv : e.phase ≠ .active) :
      Drains session reason r (.ok none) r

theorem drains (reason : CleanupReason) (r : RegistryState) :
    Drains session reason r (r.beginDrain session reason).1 (r.beginDrain session reason).2 := by
  unfold beginDrain
  cases hent : r.entries.lookup session.clientId with
  | none => exact .refuse _
  | some e =>
    by_cases hsess : e.session = session
    · subst hsess
      cases hph : e.phase with
      | active =>
        simp only [ensureSession, isActive, fence, claimCleanup,
          claimEntry, hph, decide_true, ne_eq, not_true_eq_false, ↓reduceIte]
        exact .fence e hent rfl hph
      | cleanupPending old claim =>
        cases claim with
        | ready =>
          simp only [ensureSession, isActive, claimCleanup, claimEntry, hph,
            reduceCtorEq, decide_false, false_eq_true, ne_eq, not_true_eq_false, ↓reduceIte]
          exact .claim e old hent rfl hph
        | queued | running =>
          simp only [ensureSession, isActive, claimCleanup, claimEntry, hph,
            reduceCtorEq, decide_false, false_eq_true, ne_eq, not_false_eq_true, ↓reduceIte]
          exact .leave e hent rfl (by simp [hph])
    · simp only [ensureSession, hsess, if_false]
      exact .refuse _

/-- What `finish_cleanup` answers and leaves behind. -/
inductive Finishes (session : ClientSession) (r : RegistryState) :
    Except ClientLifecycleError Unit → RegistryState → Prop
  | absent (hent : r.entries.lookup session.clientId = none) : Finishes session r (.ok ()) r
  | remove (e : ClientEntry) (reason : CleanupReason)
      (hent : r.entries.lookup session.clientId = some e) (hsess : e.session = session)
      (hrng : e.phase = .cleanupPending reason .running) :
      Finishes session r (.ok ()) (r.removeEntry session.clientId)
  | refuse (e : ClientEntry) (err : ClientLifecycleError) (hent : r.entries.lookup session.clientId = some e)
      (hstl : e.session = session → ∀ reason, e.phase ≠ .cleanupPending reason .running) :
      Finishes session r (.error err) r

theorem finishes : Finishes session r (r.finishCleanup session).1 (r.finishCleanup session).2 := by
  unfold finishCleanup
  cases hent : r.entries.lookup session.clientId with
  | none => exact .absent hent
  | some e =>
    by_cases hsess : e.session = session
    · simp only [ensureSession, hsess, if_true]
      cases hrng : e.cleanupIsRunning with
      | true =>
        rw [cleanupIsRunning] at hrng
        split at hrng
        next reason hph => exact .remove e reason hent hsess hph
        · cases hrng
      | false =>
        refine .refuse e _ hent fun _ reason hph => ?_
        simp [cleanupIsRunning, hph] at hrng
    · simp only [ensureSession, hsess, if_false]
      exact .refuse e _ hent fun h => absurd h hsess

inductive Releases (session : ClientSession) (r : RegistryState) : RegistryState → Prop
  | requeue (e : ClientEntry) (reason : CleanupReason)
      (hent : r.entries.lookup session.clientId = some e) (hsess : e.session = session)
      (hrng : e.phase = .cleanupPending reason .running) :
      Releases session r { r.setEntry session.clientId { e with phase := .cleanupPending reason .queued } with
        cleanupReady := r.cleanupReady ++ [session] }
  | leave (hstl : ∀ e, r.entries.lookup session.clientId = some e → e.session = session →
      ∀ reason, e.phase ≠ .cleanupPending reason .running) : Releases session r r

theorem releases : Releases session r (r.releaseCleanup session) := by
  unfold releaseCleanup
  cases hent : r.entries.lookup session.clientId with
  | none => exact .leave (by simp [hent])
  | some e =>
    by_cases hsess : e.session = session
    · simp only [hsess, ne_eq, not_true_eq_false, if_false]
      cases hque : e.queueRunningCleanup with
      | none =>
        refine .leave fun e' he' _ reason hph => ?_
        cases hent.symm.trans he'
        simp [queueRunningCleanup, hph] at hque
      | some e' =>
        rw [queueRunningCleanup] at hque
        split at hque
        next reason hph =>
          cases hque
          exact .requeue e reason hent hsess hph
        · cases hque
    · simp only [hsess, ne_eq, not_false_eq_true, if_true]
      refine .leave fun e' he' h => ?_
      cases hent.symm.trans he'
      exact absurd h hsess

end Cases

end RegistryState

end Cakemaster.Client
