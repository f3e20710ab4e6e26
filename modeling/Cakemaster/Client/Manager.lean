import Cakemaster.Client.GracefulQueue
import Cakemaster.Client.Lifecycle
import Cakemaster.Machine.Atomic
import Mathlib.Data.Finset.Basic

/-!
# The client manager

Mounting and unmounting of segments around the registry of sessions. The registry, the
pool, the map of client slots and the queue of graceful unmounts have a lock each; every
client slot has one for its mount state, which is held while the other components are
called. A program has one action for each of these critical sections.

Slots are shared by reference (`Arc<ClientSlot>`): a reference is a number, and the slot
counts the references to it, the one of the map included. The guard of a mount state
hands the state to its holder and gets it back when it is released; no one reads it in
between.
-/

namespace Cakemaster.Client

open Machine Machine.Prog Segment
open Object (ClientSession)

variable {A : UnitAllocator}

structure ClientCleanupReport where
  completedSessions : ℕ
  revokedPendingWrites : ℕ
  invalidatedSegments : ℕ
deriving DecidableEq

structure GracefulUnmountReport where
  completed : ℕ
  staleOrCancelled : ℕ
  retried : ℕ
deriving DecidableEq

inductive SegmentUnmountOutcome
  | unmounted
  | alreadyAbsent
deriving DecidableEq

inductive ClientManagerError
  | lifecycle (err : ClientLifecycleError)
  | attach (err : AttachError)
  | segmentState (err : SegmentStateError)
  | activeRemountConflict
  | inconsistentSlot
  | segmentUnavailable (id : SegmentId)
  | rollback (segment : SegmentId) (source : SegmentStateError)
deriving DecidableEq

def gracefulUnmountRetryTicks : ℕ := 100

structure ClientMountState where
  session : Option ClientSession
  segments : Finset SegmentId
deriving DecidableEq

def ClientMountState.default : ClientMountState := ⟨none, ∅⟩

abbrev SlotRef := ℕ

structure ClientSlot where
  mountState : ClientMountState
  locked : Bool
  strongCount : ℕ
deriving DecidableEq

structure ClientManager (A : UnitAllocator) where
  lifecycle : Lifecycle
  pool : SegmentPool A
  slots : AList fun _ : ClientId => SlotRef
  cells : SlotRef → ClientSlot
  slotCount : ℕ
  gracefulUnmounts : GracefulUnmountQueue
  gracefulLocked : Bool
  -- a history variable: the sessions that were established, each with the segments that
  -- were to be mounted with it
  established : List (ClientSession × List SegmentSpec)

namespace ClientManager

def new (pool : SegmentPool A) : ClientManager A where
  lifecycle := .new
  pool := pool
  slots := ∅
  cells _ := ⟨.default, false, 0⟩
  slotCount := 0
  gracefulUnmounts := .default
  gracefulLocked := false
  established := []

def modifyCell (r : SlotRef) (f : ClientSlot → ClientSlot) (m : ClientManager A) :
    ClientManager A :=
  { m with cells := Function.update m.cells r (f (m.cells r)) }

def retain (r : SlotRef) : ClientManager A → ClientManager A :=
  modifyCell r fun slot => { slot with strongCount := slot.strongCount + 1 }

def release (r : SlotRef) : ClientManager A → ClientManager A :=
  modifyCell r fun slot => { slot with strongCount := slot.strongCount - 1 }

/-- A new slot, with the reference of the map and the one that is returned. -/
def insertSlot (clientId : ClientId) (m : ClientManager A) : ClientManager A :=
  { m with
    slots := m.slots.insert clientId m.slotCount
    cells := Function.update m.cells m.slotCount ⟨.default, false, 2⟩
    slotCount := m.slotCount + 1 }

def slot (clientId : ClientId) (m : ClientManager A) : SlotRef × ClientManager A :=
  match m.slots.lookup clientId with
  | some r => (r, m.retain r)
  | none => (m.slotCount, m.insertSlot clientId)

def existingSlot (clientId : ClientId) (m : ClientManager A) : Option SlotRef × ClientManager A :=
  match m.slots.lookup clientId with
  | some r => (some r, m.retain r)
  | none => (none, m)

def lockMountState (r : SlotRef) (m : ClientManager A) :
    Option (ClientMountState × ClientManager A) :=
  if (m.cells r).locked then none
  else some ((m.cells r).mountState, m.modifyCell r fun slot => { slot with locked := true })

def unlockMountState (r : SlotRef) (state : ClientMountState) : ClientManager A → ClientManager A :=
  modifyCell r fun slot => { slot with mountState := state, locked := false }

/-- The first section of `prune_unused_slot`: whether the slot has a session. -/
def isBound (r : SlotRef) (m : ClientManager A) : Option (Bool × ClientManager A) :=
  if (m.cells r).locked then none else some ((m.cells r).mountState.session.isSome, m)

/-- The second section: the map drops a slot that only the caller refers to. -/
def removeUnused (clientId : ClientId) (r : SlotRef) (m : ClientManager A) : ClientManager A :=
  if (m.cells r).strongCount = 2 ∧ m.slots.lookup clientId = some r then
    { m.release r with slots := m.slots.erase clientId }
  else m

/-- The section of a cleanup under the lock of the mount state: whether the slot is free of
other sessions. -/
def clearMountState (session : ClientSession) (r : SlotRef) (m : ClientManager A) :
    Option (Bool × ClientManager A) :=
  if (m.cells r).locked then none
  else
    match (m.cells r).mountState.session with
    | some current =>
      if current = session then some (true, m.modifyCell r fun slot => { slot with mountState := .default })
      else some (false, m)
    | none => some (true, m)

/-- `ClientRegistry::activate`, for a request to mount the given segments. -/
def activate (cfg : ClientLifecycleConfig) (clientId : ClientId) (now : ClientTick)
    (request : List SegmentSpec) (m : ClientManager A) :
    Except ClientLifecycleError ActivateOutcome × ClientManager A :=
  let (result, lifecycle) := m.lifecycle.activate cfg clientId now
  let established :=
    match result with
    | .ok (.activated session) => m.established ++ [(session, request)]
    | _ => m.established
  (result, { m with lifecycle, established })

end ClientManager

/-! ### Actions -/

/-- The code of the manager. -/
abbrev ManagerM (A : UnitAllocator) := Prog (ClientManager A)

def readRegistry {β : Type} (f : RegistryState → β) : ManagerM A β :=
  read fun m => f m.lifecycle.registry

def onRegistry {β : Type} (f : Lifecycle → β × Lifecycle) : ManagerM A β :=
  update fun m => ((f m.lifecycle).1, { m with lifecycle := (f m.lifecycle).2 })

def readPool {β : Type} (f : SegmentPool A → β) : ManagerM A β := read fun m => f m.pool

def onPool {β : Type} (f : SegmentPool A → β × SegmentPool A) : ManagerM A β :=
  update fun m => ((f m.pool).1, { m with pool := (f m.pool).2 })

/-- An operation of the pool that may panic. -/
def tryPool {β : Type} (f : SegmentPool A → Option (β × SegmentPool A)) : ManagerM A β :=
  await fun m => (f m.pool).map fun result => (result.1, { m with pool := result.2 })

/-- A section under the lock of the queue. -/
def onGraceful {β : Type} (f : GracefulUnmountQueue → β × GracefulUnmountQueue) : ManagerM A β :=
  await fun m =>
    if m.gracefulLocked then none
    else some ((f m.gracefulUnmounts).1, { m with gracefulUnmounts := (f m.gracefulUnmounts).2 })

def lockGraceful : ManagerM A Unit :=
  await fun m => if m.gracefulLocked then none else some ((), { m with gracefulLocked := true })

/-- The holder of the queue's lock leaves the queue as it is given. -/
def unlockGraceful (f : GracefulUnmountQueue → GracefulUnmountQueue) : ManagerM A Unit :=
  modify fun m => { m with gracefulUnmounts := f m.gracefulUnmounts, gracefulLocked := false }

def takeSlot (clientId : ClientId) : ManagerM A SlotRef := update (ClientManager.slot clientId)

def takeExistingSlot (clientId : ClientId) : ManagerM A (Option SlotRef) :=
  update (ClientManager.existingSlot clientId)

def dropSlot (r : SlotRef) : ManagerM A Unit := modify (ClientManager.release r)

def lockSlot (r : SlotRef) : ManagerM A ClientMountState := await (ClientManager.lockMountState r)

def unlockSlot (r : SlotRef) (state : ClientMountState) : ManagerM A Unit :=
  modify (ClientManager.unlockMountState r state)

def dropCleanup (cleanup : ClientCleanup) : ManagerM A Unit :=
  onRegistry fun s => ((), s.drop cleanup)

def activate (cfg : ClientLifecycleConfig) (clientId : ClientId) (now : ClientTick)
    (request : List SegmentSpec) : ManagerM A (Except ClientLifecycleError ActivateOutcome) :=
  update (ClientManager.activate cfg clientId now request)

/-- `attach_quiesced`, together with the id that the segment of the outcome shows. -/
def attachQuiesced (spec : SegmentSpec) :
    ManagerM A (Except AttachError (AttachOutcome × SegmentId)) :=
  tryPool fun p => (p.attachQuiesced spec).map fun result =>
    (result.1.map fun outcome => (outcome, result.2.idAt outcome.segment.entry), result.2)

/-- The state of a segment; a handle keeps its entry. -/
def segmentState (segment : SegmentHandle) : ManagerM A SegmentState :=
  tryPool fun p => (p.stateAt segment).map fun state => (state, p)

def pruneUnusedSlot (clientId : ClientId) (r : SlotRef) : ManagerM A Unit := do
  let bound ← await (ClientManager.isBound r)
  if bound then return ()
  else modify (ClientManager.removeUnused clientId r)

/-! ### Mounting -/

def rollback (clientId : ClientId) (attached reactivated : List SegmentId) :
    ManagerM A (Except ClientManagerError Unit) := do
  let firstError ← foldOver (fun firstError segment => do
    match ← onPool (·.quiesce clientId segment) with
    | .ok () => return firstError
    | .error source => return firstError.or (some (.rollback segment source))) reactivated.reverse none
  let firstError ← foldOver (fun firstError segment => do
    match ← onPool (·.quiesce clientId segment) with
    | .error source => return firstError.or (some (.rollback segment source))
    | .ok () =>
      match ← onPool (·.remove clientId segment) with
      | .ok () => return firstError
      | .error source => return firstError.or (some (.rollback segment source))) attached.reverse firstError
  match firstError with
  | some err => return .error err
  | none => return .ok ()

/-- `self.rollback(..)?` before an error is returned. -/
def failWith (clientId : ClientId) (attached reactivated : List SegmentId)
    (err : ClientManagerError) :
    ManagerM A ClientManagerError := do
  match ← rollback clientId attached reactivated with
  | .error err => return err
  | .ok () => return err

/-- The loop of `remount_locked` that attaches the segments, with those that are new and
those that were there and quiesced. -/
def attachSegments (clientId : ClientId) :
    List SegmentSpec → List SegmentId → List SegmentId →
      ManagerM A (Except ClientManagerError (List SegmentId × List SegmentId))
  | [], attached, quiescedExisting => return .ok (attached, quiescedExisting)
  | spec :: rest, attached, quiescedExisting => do
    match ← attachQuiesced spec with
    | .error err => return .error (← failWith clientId attached [] (.attach err))
    | .ok (outcome, id) =>
      if outcome.isNew then attachSegments clientId rest (attached ++ [id]) quiescedExisting
      else
        match ← segmentState outcome.segment with
        | .quiesced => attachSegments clientId rest attached (quiescedExisting ++ [id])
        | _ => attachSegments clientId rest attached quiescedExisting

def requestedIds (segments : List SegmentSpec) : Finset SegmentId :=
  (segments.map (·.identity.id)).toFinset

/-- Whether the pool has all the given segments as they are specified, one look at a time. -/
def allMounted : List SegmentSpec → ManagerM A Bool
  | [] => return true
  | spec :: rest => do
    match ← readPool (·.segment spec.identity.id) with
    | none => return false
    | some (_, mounted) => if mounted ≠ spec then return false else allMounted rest

def remountActive (cfg : ClientLifecycleConfig) (clientId : ClientId) (segments : List SegmentSpec)
    (now : ClientTick) (state : ClientMountState) :
    ManagerM A (Except ClientManagerError ActivateOutcome) := do
  match ← readRegistry (·.activeSession clientId) with
  | .error err => return .error (.lifecycle err)
  | .ok session =>
    if state.session ≠ some session then return .error .inconsistentSlot
    else if requestedIds segments ≠ state.segments then return .error .activeRemountConflict
    else
      let mounted ← allMounted segments
      if !mounted then return .error .activeRemountConflict
      else
        match ← activate cfg clientId now segments with
        | .error err => return .error (.lifecycle err)
        | .ok outcome => return .ok outcome

/-- `remount_locked` of a client that has no entry. -/
def remountAbsent (cfg : ClientLifecycleConfig) (clientId : ClientId) (segments : List SegmentSpec)
    (now : ClientTick) (state : ClientMountState) :
    ManagerM A (Except ClientManagerError ActivateOutcome × ClientMountState) := do
  match ← attachSegments clientId segments [] [] with
  | .error err => return (.error err, state)
  | .ok (attached, quiescedExisting) =>
    match ← onPool (·.reactivateMany clientId (attached ++ quiescedExisting)) with
    | .error err => return (.error (← failWith clientId attached quiescedExisting (.segmentState err)), state)
    | .ok () =>
      match ← activate cfg clientId now segments with
      | .ok (.activated session) => return (.ok (.activated session), ⟨some session, requestedIds segments⟩)
      | .ok (.alreadyActive _) =>
        return (.error (← failWith clientId attached quiescedExisting .inconsistentSlot), state)
      | .error err => return (.error (← failWith clientId attached quiescedExisting (.lifecycle err)), state)

def remountLocked (cfg : ClientLifecycleConfig) (clientId : ClientId) (segments : List SegmentSpec)
    (now : ClientTick) (state : ClientMountState) :
    ManagerM A (Except ClientManagerError ActivateOutcome × ClientMountState) := do
  match ← readRegistry (·.state clientId) with
  | some .active => return (← remountActive cfg clientId segments now state, state)
  | some other => return (.error (.lifecycle (.cleanupInProgress other)), state)
  | none => remountAbsent cfg clientId segments now state

/-- `mount_segment_active` with a segment that the client has not mounted. -/
def mountSegmentNew (cfg : ClientLifecycleConfig) (clientId : ClientId) (session : ClientSession)
    (spec : SegmentSpec) (now : ClientTick) (state : ClientMountState) :
    ManagerM A (Except ClientManagerError ActivateOutcome × ClientMountState) := do
  let segmentId := spec.identity.id
  match ← attachQuiesced spec with
  | .error err => return (.error (.attach err), state)
  | .ok (outcome, _) =>
    if !outcome.isNew then return (.error .inconsistentSlot, state)
    else
      match ← onPool (·.reactivate clientId segmentId) with
      | .error source => return (.error (← failWith clientId [segmentId] [] (.segmentState source)), state)
      | .ok () =>
        match ← activate cfg clientId now [spec] with
        | .ok (.alreadyActive current) =>
          if current = session then
            return (.ok (.alreadyActive current), { state with segments := insert segmentId state.segments })
          else return (.error (← failWith clientId [segmentId] [] .inconsistentSlot), state)
        | .ok (.activated _) => return (.error (← failWith clientId [segmentId] [] .inconsistentSlot), state)
        | .error err => return (.error (← failWith clientId [segmentId] [] (.lifecycle err)), state)

/-- `mount_segment_active` with a segment that the client has mounted. -/
def mountSegmentAgain (cfg : ClientLifecycleConfig) (clientId : ClientId) (spec : SegmentSpec)
    (now : ClientTick) :
    ManagerM A (Except ClientManagerError ActivateOutcome) := do
  match ← readPool (·.segment spec.identity.id) with
  | none => return .error .inconsistentSlot
  | some (segment, mounted) =>
    if mounted ≠ spec then return .error .activeRemountConflict
    else
      match ← segmentState segment with
      | .accepting =>
        match ← activate cfg clientId now [spec] with
        | .error err => return .error (.lifecycle err)
        | .ok outcome => return .ok outcome
      | _ => return .error (.segmentUnavailable spec.identity.id)

def mountSegmentActive (cfg : ClientLifecycleConfig) (clientId : ClientId) (spec : SegmentSpec)
    (now : ClientTick) (state : ClientMountState) :
    ManagerM A (Except ClientManagerError ActivateOutcome × ClientMountState) := do
  match ← readRegistry (·.activeSession clientId) with
  | .error err => return (.error (.lifecycle err), state)
  | .ok session =>
    if state.session ≠ some session then return (.error .inconsistentSlot, state)
    else if spec.identity.id ∈ state.segments then return (← mountSegmentAgain cfg clientId spec now, state)
    else mountSegmentNew cfg clientId session spec now state

def mountSegmentAbsent (cfg : ClientLifecycleConfig) (clientId : ClientId) (spec : SegmentSpec)
    (now : ClientTick) (state : ClientMountState) :
    ManagerM A (Except ClientManagerError ActivateOutcome × ClientMountState) := do
  match ← attachQuiesced spec with
  | .error err => return (.error (.attach err), state)
  | .ok (outcome, segmentId) =>
    let attached := if outcome.isNew then [segmentId] else []
    match ← activate cfg clientId now [spec] with
    | .ok (.alreadyActive _) => return (.error (← failWith clientId attached [] .inconsistentSlot), state)
    | .error err => return (.error (← failWith clientId attached [] (.lifecycle err)), state)
    | .ok (.activated session) =>
      match ← onPool (·.reactivate clientId segmentId) with
      | .ok () => return (.ok (.activated session), ⟨some session, insert segmentId state.segments⟩)
      | .error source =>
        let registryRollback ← onRegistry (·.rollbackActivation session)
        match ← rollback clientId attached [] with
        | .error err => return (.error err, state)
        | .ok () =>
          match registryRollback with
          | .error err => return (.error (.lifecycle err), state)
          | .ok () => return (.error (.segmentState source), state)

def mountSegmentLocked (cfg : ClientLifecycleConfig) (clientId : ClientId) (spec : SegmentSpec)
    (now : ClientTick) (state : ClientMountState) :
    ManagerM A (Except ClientManagerError ActivateOutcome × ClientMountState) := do
  match ← readRegistry (·.state clientId) with
  | none => mountSegmentAbsent cfg clientId spec now state
  | some .active => mountSegmentActive cfg clientId spec now state
  | some other => return (.error (.lifecycle (.cleanupInProgress other)), state)

/-- The frame that `mount_segment` and `remount` share: the slot is taken and locked, and
pruned again when the operation fails. -/
def mounting (clientId : ClientId) (operation : ClientMountState →
      ManagerM A (Except ClientManagerError ActivateOutcome × ClientMountState)) :
    ManagerM A (Except ClientManagerError ActivateOutcome) := do
  let r ← takeSlot clientId
  let state ← lockSlot r
  let (result, state) ← operation state
  unlockSlot r state
  match result with
  | .ok outcome =>
    dropSlot r
    return .ok outcome
  | .error err =>
    pruneUnusedSlot clientId r
    dropSlot r
    return .error err

def mountSegment (cfg : ClientLifecycleConfig) (clientId : ClientId) (spec : SegmentSpec)
    (now : ClientTick) : ManagerM A (Except ClientManagerError ActivateOutcome) :=
  if clientId.isNil then return .error (.lifecycle .nilClientId)
  else if spec.identity.owner ≠ clientId then
    return .error (.segmentState (.ownerMismatch spec.identity.id spec.identity.owner clientId))
  else mounting clientId (mountSegmentLocked cfg clientId spec now)

def remount (cfg : ClientLifecycleConfig) (clientId : ClientId) (segments : List SegmentSpec)
    (now : ClientTick) : ManagerM A (Except ClientManagerError ActivateOutcome) :=
  if clientId.isNil then return .error (.lifecycle .nilClientId)
  else mounting clientId (remountLocked cfg clientId segments now)

/-! ### Unmounting -/

/-- `unmount_segment` under the lock of the mount state. -/
def unmountLocked (clientId : ClientId) (session : ClientSession) (segmentId : SegmentId)
    (state : ClientMountState) :
    ManagerM A (Except ClientManagerError SegmentUnmountOutcome × ClientMountState) := do
  if state.session ≠ some session ∨
    segmentId ∉ state.segments then return (.error .inconsistentSlot, state)
  else
    match ← onPool (·.quiesce clientId segmentId) with
    | .error err => return (.error (.segmentState err), state)
    | .ok () =>
      match ← onPool (·.remove clientId segmentId) with
      | .error err => return (.error (.segmentState err), state)
      | .ok () =>
        onGraceful fun queue => ((), queue.cancel ⟨session, segmentId⟩)
        return (.ok .unmounted, { state with segments := state.segments.erase segmentId })

def unmountSegment (clientId : ClientId) (segmentId : SegmentId) :
    ManagerM A (Except ClientManagerError SegmentUnmountOutcome) := do
  if clientId.isNil then return .error (.lifecycle .nilClientId)
  else if segmentId.isNil then return .error (.segmentState (.notFound segmentId))
  else
    match ← readPool (·.segment segmentId) with
    | none => return .ok .alreadyAbsent
    | some (_, spec) =>
      if spec.identity.owner ≠ clientId then
        return .error (.segmentState (.ownerMismatch segmentId spec.identity.owner clientId))
      else
        match ← readRegistry (·.activeSession clientId) with
        | .error err => return .error (.lifecycle err)
        | .ok session =>
          match ← takeExistingSlot clientId with
          | none => return .error .inconsistentSlot
          | some r =>
            let state ← lockSlot r
            let (result, state) ← unmountLocked clientId session segmentId state
            unlockSlot r state
            dropSlot r
            return result

/-- `schedule_graceful_unmount` under the locks of the mount state and of the queue. -/
def scheduleLocked (clientId : ClientId) (session : ClientSession) (segment : SegmentHandle)
    (segmentId : SegmentId) (deadline : ClientTick) (state : ClientMountState) :
    ManagerM A (Except ClientManagerError Unit) := do
  if state.session ≠ some session ∨ segmentId ∉ state.segments then
    return .error (.segmentState (.notFound segmentId))
  else
    lockGraceful
    match ← segmentState segment with
    | .accepting =>
      match ← onPool (·.quiesce clientId segmentId) with
      | .error err =>
        unlockGraceful id
        return .error (.segmentState err)
      | .ok () =>
        unlockGraceful (·.schedule ⟨session, segmentId⟩ segment deadline)
        return .ok ()
    | .quiesced =>
      let scheduled ← read fun m => m.gracefulUnmounts.contains ⟨session, segmentId⟩ segment
      if scheduled then
        unlockGraceful (·.schedule ⟨session, segmentId⟩ segment deadline)
        return .ok ()
      else
        unlockGraceful id
        return .error (.segmentUnavailable segmentId)
    | .removed =>
      unlockGraceful id
      return .error (.segmentUnavailable segmentId)

def scheduleGracefulUnmount (clientId : ClientId) (segmentId : SegmentId) (deadline : ClientTick) :
    ManagerM A (Except ClientManagerError Unit) := do
  if clientId.isNil then return .error (.lifecycle .nilClientId)
  else if segmentId.isNil then return .error (.segmentState (.notFound segmentId))
  else
    match ← readPool (·.segment segmentId) with
    | none => return .error (.segmentState (.notFound segmentId))
    | some (segment, spec) =>
      if spec.identity.owner ≠ clientId then
        return .error (.segmentState (.ownerMismatch segmentId spec.identity.owner clientId))
      else
        match ← readRegistry (·.activeSession clientId) with
        | .error err => return .error (.lifecycle err)
        | .ok session =>
          match ← takeExistingSlot clientId with
          | none => return .error .inconsistentSlot
          | some r =>
            let state ← lockSlot r
            let result ← scheduleLocked clientId session segment segmentId deadline state
            unlockSlot r state
            dropSlot r
            return result

/-- `complete_graceful_unmount` under the lock of the mount state. -/
def completeLocked (job : GracefulUnmountJob) (state : ClientMountState) :
    ManagerM A (Except SegmentStateError Bool × ClientMountState) := do
  let clientId := job.key.session.clientId
  if state.session ≠ some job.key.session ∨
    job.key.segment ∉ state.segments then return (.ok false, state)
  else
    match ← readPool (·.segment job.key.segment) with
    | none => return (.ok false, state)
    | some (segment, _) =>
      if job.incarnation ≠ segment then return (.ok false, state)
      else
        match ← segmentState segment with
        | .accepting =>
          match ← onPool (·.quiesce clientId job.key.segment) with
          | .error err => return (.error err, state)
          | .ok () => return (.error (.stillAccepting job.key.segment), state)
        | .removed => return (.ok false, state)
        | .quiesced =>
          match ← onPool (·.remove clientId job.key.segment) with
          | .error err => return (.error err, state)
          | .ok () => return (.ok true, { state with segments := state.segments.erase job.key.segment })

def completeGracefulUnmount (job : GracefulUnmountJob) :
    ManagerM A (Except SegmentStateError Bool) := do
  match ← takeExistingSlot job.key.session.clientId with
  | none => return .ok false
  | some r =>
    let state ← lockSlot r
    let (result, state) ← completeLocked job state
    unlockSlot r state
    dropSlot r
    return result

/-- One round of the loop of `run_graceful_unmount_step`. -/
def runGracefulJob (now : ClientTick) (report : GracefulUnmountReport) (job : GracefulUnmountJob) :
    ManagerM A GracefulUnmountReport := do
  match ← completeGracefulUnmount job with
  | .ok true =>
    onGraceful fun queue => ((), queue.finish job)
    return { report with completed := report.completed + 1 }
  | .ok false =>
    onGraceful fun queue => ((), queue.finish job)
    return { report with staleOrCancelled := report.staleOrCancelled + 1 }
  | .error _ =>
    let retried ← onGraceful (·.retry job (Word.satAdd 64 now gracefulUnmountRetryTicks))
    if retried then return { report with retried := report.retried + 1 }
    else return { report with staleOrCancelled := report.staleOrCancelled + 1 }

def runGracefulUnmountStep (cfg : ClientLifecycleConfig) (now : ClientTick) :
    ManagerM A GracefulUnmountReport := do
  let (jobs, cancelled) ← onGraceful fun queue =>
    let (jobs, queue) := queue.claimDue now cfg.cleanupScanBudget
    let (cancelled, queue) := queue.takeCancelled
    ((jobs, cancelled), queue)
  foldOver (runGracefulJob now) jobs ⟨0, cancelled, 0⟩

/-! ### Cleanup -/

def dropReference : Option SlotRef → ManagerM A Unit
  | none => return ()
  | some r => dropSlot r

def dropCleanups : List ClientCleanup → ManagerM A Unit
  | [] => return ()
  | cleanup :: rest => do
    dropCleanup cleanup
    dropCleanups rest

def dropReady : List (ClientCleanup × Option SlotRef) → ManagerM A Unit
  | [] => return ()
  | (cleanup, slot) :: rest => do
    dropCleanup cleanup
    dropReference slot
    dropReady rest

/-- The first loop of `cleanup_batch`. A slot of another session ends the batch, and all of
its claims are dropped. -/
def clearSlots : List ClientCleanup → List (ClientCleanup × Option SlotRef) →
    ManagerM A (Except ClientManagerError (List (ClientCleanup × Option SlotRef)))
  | [], ready => return .ok ready
  | cleanup :: rest, ready => do
    onGraceful fun queue => ((), queue.cancelSession cleanup.session)
    match ← takeExistingSlot cleanup.session.clientId with
    | none => clearSlots rest (ready ++ [(cleanup, none)])
    | some r =>
      let cleared ← await (ClientManager.clearMountState cleanup.session r)
      if cleared then clearSlots rest (ready ++ [(cleanup, some r)])
      else
        dropSlot r
        dropCleanups (cleanup :: rest)
        dropReady ready
        return .error .inconsistentSlot

def pruneSlots : List (ClientCleanup × Option SlotRef) → ManagerM A Unit
  | [] => return ()
  | (_, none) :: rest => pruneSlots rest
  | (cleanup, some r) :: rest => do
    pruneUnusedSlot cleanup.session.clientId r
    pruneSlots rest

def finishCleanups :
    List (ClientCleanup × Option SlotRef) → ℕ → ManagerM A (Except ClientManagerError ℕ)
  | [], completed => return .ok completed
  | (cleanup, slot) :: rest, completed => do
    let result ← onRegistry (·.finish cleanup)
    dropReference slot
    match result with
    | .ok () => finishCleanups rest (completed + 1)
    | .error err =>
      dropReady rest
      return .error (.lifecycle err)

/-- `cleanup_batch`. The pending writes of the sessions are revoked in the object catalog,
which answers with how many there were. -/
def cleanupBatch (cleanups : List ClientCleanup) :
    ManagerM A (Except ClientManagerError ClientCleanupReport) := do
  match ← clearSlots cleanups [] with
  | .error err => return .error err
  | .ok ready =>
    let revoked ← pick 0
    let invalidated ← tryPool (·.invalidateOwners (ready.map (·.1.session.clientId)))
    pruneSlots ready
    match ← finishCleanups ready 0 with
    | .error err => return .error err
    | .ok completed => return .ok ⟨completed, revoked, invalidated⟩

def beginDrains (reason : CleanupReason) : List ClientSession → List ClientCleanup →
    ManagerM A (Except ClientManagerError (List ClientCleanup))
  | [], cleanups => return .ok cleanups
  | session :: rest, cleanups => do
    match ← onRegistry (·.beginDrain session reason) with
    | .ok cleanup => beginDrains reason rest (cleanups ++ cleanup.toList)
    | .error err =>
      dropCleanups cleanups
      return .error (.lifecycle err)

def drainSessions (sessions : List ClientSession) (reason : CleanupReason) :
    ManagerM A (Except ClientManagerError ClientCleanupReport) := do
  match ← beginDrains reason sessions [] with
  | .error err => return .error err
  | .ok cleanups => cleanupBatch cleanups

def runCleanupStep (cfg : ClientLifecycleConfig) (clientNow : ClientTick) :
    ManagerM A (Except ClientManagerError ClientCleanupReport) := do
  let cleanups ← onRegistry (·.claimDueCleanups cfg clientNow cfg.cleanupScanBudget)
  cleanupBatch cleanups

/-! ### Calls -/

inductive ManagerCall
  | heartbeat (clientId : ClientId) (now : ClientTick)
  | writeOwner (clientId : ClientId)
  | writeAdmission (clientId : ClientId)
  | drainSessions (sessions : List ClientSession) (reason : CleanupReason)
  | runCleanupStep (clientNow : ClientTick)
  | mountSegment (clientId : ClientId) (spec : SegmentSpec) (now : ClientTick)
  | unmountSegment (clientId : ClientId) (segmentId : SegmentId)
  | scheduleGracefulUnmount (clientId : ClientId) (segmentId : SegmentId) (deadline : ClientTick)
  | runGracefulUnmountStep (now : ClientTick)
  | nextGracefulUnmountDeadline
  | remount (clientId : ClientId) (segments : List SegmentSpec) (now : ClientTick)
deriving DecidableEq

inductive ManagerResult
  | beat (outcome : HeartbeatOutcome)
  | session (result : Except ClientLifecycleError ClientSession)
  | cleaned (result : Except ClientManagerError ClientCleanupReport)
  | mounted (result : Except ClientManagerError ActivateOutcome)
  | unmounted (result : Except ClientManagerError SegmentUnmountOutcome)
  | scheduled (result : Except ClientManagerError Unit)
  | stepped (report : GracefulUnmountReport)
  | deadline (deadline : Option ClientTick)

namespace ManagerCall

/-- The program of a call. An owner or an admission of a write is known by its session. -/
def code (cfg : ClientLifecycleConfig) : ManagerCall → ManagerM A ManagerResult
  | heartbeat clientId now => return .beat (← onRegistry (·.heartbeat cfg clientId now))
  | writeOwner clientId => return .session (← readRegistry (·.activeSession clientId))
  | writeAdmission clientId => return .session (← readRegistry (·.activeSession clientId))
  | drainSessions sessions reason => return .cleaned (← Client.drainSessions sessions reason)
  | runCleanupStep clientNow => return .cleaned (← Client.runCleanupStep cfg clientNow)
  | mountSegment clientId spec now => return .mounted (← Client.mountSegment cfg clientId spec now)
  | unmountSegment clientId segmentId =>
    return .unmounted (← Client.unmountSegment clientId segmentId)
  | scheduleGracefulUnmount clientId segmentId deadline =>
    return .scheduled (← Client.scheduleGracefulUnmount clientId segmentId deadline)
  | runGracefulUnmountStep now => return .stepped (← Client.runGracefulUnmountStep cfg now)
  | nextGracefulUnmountDeadline => return .deadline (← onGraceful (·.nextDeadline))
  | remount clientId segments now => return .mounted (← Client.remount cfg clientId segments now)

end ManagerCall

/-- Threads that call a manager with the given calls, over a pool that is in order. -/
def managerSystem (A : UnitAllocator) (cfg : ClientLifecycleConfig) (allowed : ManagerCall → Prop) :
    System (ClientManager A) ℕ { call : ManagerCall // allowed call } ManagerResult where
  init m := ∃ pool held, PoolInvariant pool held ∧ m = .new pool
  code _ call := call.1.code cfg
  env _ _ := False

end Cakemaster.Client
