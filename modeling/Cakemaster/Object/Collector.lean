import Cakemaster.Object.Read

/-!
# Retirement

Removal, expiry of soft pins and of transactions, the liveness sweep, and revocation
of the transactions of fenced sessions. Collector steps and revocations exclude each
other by the step gate; they race with all other calls.

A candidate that a step gives up leaves `hand` in the very action that finds it stale.
-/

namespace Cakemaster.Object

open Machine Machine.Prog Segment World

variable {A : UnitAllocator}

namespace World

def dropCandidate (c : GcCandidate) (w : World A) : World A :=
  w.setHand (w.eviction.hand.erase c)

/-- A look at a candidate, which is given up when the look fails. -/
def keepIf (c : GcCandidate) (keep : World A → Bool) (w : World A) : Bool × World A :=
  if keep w then (true, w) else (false, w.dropCandidate c)

/-- `clear_committed` before the final lease sample. -/
def withdraw (s : SlotRef) (v : VersionRef) (w : World A) : World A :=
  (w.setCommitted s none).setStanding v (.withdrawn s)

/-- `publish_committed` of a withdrawn version. -/
def restore (s : SlotRef) (v : VersionRef) (w : World A) : World A :=
  (w.setCommitted s (some v)).setStanding v (.published s)

/-- The final sample of the lease of a withdrawn version. -/
def sampleWithdrawn (v : VersionRef) (now : CatalogTick) (w : World A) : CatalogTick × World A :=
  (w.leaseUntil v, if now < w.leaseUntil v then w else w.setStanding v (.left now))

/-- The final sample of an eviction, which gives up the candidate of an unleased version. -/
def sampleEvicted (c : GcCandidate) (now : CatalogTick) (w : World A) : Bool × World A :=
  if now < w.leaseUntil c.version then (true, w)
  else (false, (w.setStanding c.version (.left now)).dropCandidate c)

/-- `clear_committed` by a forced remove. -/
def expel (s : SlotRef) (v : VersionRef) (w : World A) : World A :=
  (w.setCommitted s none).setStanding v .forced

/-- `clear_committed` of a version without live replicas, whose candidate is given up. -/
def lose (c : GcCandidate) (w : World A) : World A :=
  ((w.setCommitted c.slot none).setStanding c.version .lost).dropCandidate c

end World

/-! ### Removal -/

def retirePublished (cfg : CatalogConfig) (s : SlotRef) (v : VersionRef) (now : CatalogTick) :
    CatalogM A Unit := do
  let bytes ← read fun w => (w.versions v).reservedBytes
  let memory ← read (·.isMemory v)
  markAccountingRetiring v
  (LifecycleCounters.onRetirePublished bytes memory).zoom lifecycleVar
  modify (retire v bytes now)
  enqueueEmpty cfg s now

/-- The part of a remove without force that has found an idle slot with `v`. -/
def removeUnleased (cfg : CatalogConfig) (s : SlotRef) (v : VersionRef) (now : CatalogTick) :
    CatalogM A (Except RemoveError Unit) := do
  let leaseUntil ← read (·.leaseUntil v)
  if now < leaseUntil then do
    unlock s
    return .error (.leased leaseUntil)
  else if ← read fun w => (w.access v).hardPinned then do
    unlock s
    return .error .hardPinned
  else do
    modify (withdraw s v)
    let leaseUntil ← update (sampleWithdrawn v now)
    if now < leaseUntil then do
      modify (restore s v)
      unlock s
      return .error (.leased leaseUntil)
    else do
      unlock s
      retirePublished cfg s v now
      return .ok ()

def removeForced (cfg : CatalogConfig) (s : SlotRef) (v : VersionRef) (now : CatalogTick) :
    CatalogM A (Except RemoveError Unit) := do
  modify (expel s v)
  unlock s
  retirePublished cfg s v now
  return .ok ()

/-- The critical section of a remove on a slot without a transaction. -/
def removeIdle (cfg : CatalogConfig) (s : SlotRef) (now : CatalogTick) (force : Bool) :
    CatalogM A (Except RemoveError Unit) := do
  match ← read (·.committed s) with
  | none => do
    unlock s
    return .error .notFound
  | some v =>
    if ← committedPointsTo s v then
      if force then removeForced cfg s v now else removeUnleased cfg s v now
    else do
      unlock s
      return .error .notFound

def removeWithForce (cfg : CatalogConfig) (identity : ObjectIdentity) (now : CatalogTick)
    (force : Bool) : CatalogM A (Except RemoveError Unit) := do
  match ← read (·.lookupSlot identity) with
  | none => return .error .notFound
  | some s => do
    lock s
    if (← read (·.active s)).isSome then do
      unlock s
      return .error .notReady
    else removeIdle cfg s now force

/-! ### Candidates -/

/-- The upgrades and the first unlocked look at the pointer, for a candidate in hand. -/
def reachCandidate (c : GcCandidate) : CatalogM A Bool := do
  let alive ← pick false
  if ← update (keepIf c fun w => w.indexed c.slot || alive) then
    if ← update (keepIf c fun w => !(w.versions c.version).reclaimed) then
      update (keepIf c fun w => w.committed c.slot = some c.version)
    else return false
  else return false

namespace World

def popSoftPin (w : World A) : Option SoftPinCandidate × World A :=
  match w.eviction.softPins with
  | [] => (none, w)
  | pin :: rest => (some pin, { w with eviction := { w.eviction with softPins := rest } })

end World

def expireSoftPinRound (now : CatalogTick) (report : CollectReport) :
    CatalogM A (CollectReport ⊕ CollectReport) := do
  match ← update popSoftPin with
  | none => return .inr report
  | some pin => do
    let report := { report with scannedSoftPins := report.scannedSoftPins + 1 }
    if ← upgradeSlot pin.candidate.slot then
      if ← upgradeVersion pin.candidate.version then
        if ← committedPointsTo pin.candidate.slot pin.candidate.version then
          if now < pin.deadline then do
            modify (pushSoftPin pin)
            return .inl report
          else if ← expireSoftPin pin.candidate.version pin.deadline now then
            return .inl { report with expiredSoftPins := report.expiredSoftPins + 1 }
          else return .inl report
        else return .inl report
      else return .inl report
    else return .inl report

def expireSoftPins (now : CatalogTick) (budget : CollectBudget) (report : CollectReport) :
    CatalogM A CollectReport := do
  let pins ← read (·.eviction.softPins.length)
  upTo (expireSoftPinRound now) (min pins budget.maxCandidates) report

/-! ### The liveness sweep -/

/-- What a pass over a queue has done so far, and the replicas it is to give back. -/
structure Pass (A : UnitAllocator) where
  report : CollectReport
  batch : List (VersionRef × Reservation A)
  remaining : ℕ
  scanned : ℕ

def tag (v : VersionRef) (replicas : ReplicaSet A) : List (VersionRef × Reservation A) :=
  replicas.map fun replica => (v, replica.reservation)

namespace World

/-- `release_many` on one allocator. -/
def releaseGroup (now : CatalogTick) (group : List (VersionRef × Reservation A)) (w : World A) :
    Option (Unit × World A) := do
  let pool ← w.pool.releaseGroup (group.map (·.2))
  some ((), { w with
    pool
    history := { w.history with
      released := w.history.released ++ group.map fun (v, r) => ⟨v, r, now, w.pool.isLive r⟩ } })

end World

def releaseBatch (now : CatalogTick) (batch : List (VersionRef × Reservation A)) :
    CatalogM A Unit :=
  foldOver (fun () group => await (releaseGroup now group)) (entryGroups (·.2.entry) batch) ()

def beginIfRequested : CatalogM A Unit := do
  let requested ← update fun w =>
    (w.liveness.requested, { w with liveness := { w.liveness with requested := false } })
  guarded requested do
    let young ← read (·.eviction.young.length)
    modify fun w =>
      { w with liveness := w.liveness.modifyRemaining .young fun n => max n young }
    let protectedCount ← read (·.eviction.protectedQueue.length)
    modify fun w =>
      { w with liveness := w.liveness.modifyRemaining .protectedQueue fun n => max n protectedCount }

/-- All replicas of the committed version are dead; a transaction keeps it. -/
def sweepLost (cfg : CatalogConfig) (generation : Generation) (c : GcCandidate) (now : CatalogTick)
    (pass : Pass A) : CatalogM A (Pass A) := do
  if (← read (·.active c.slot)).isSome then do
    unlock c.slot
    modify (pushCandidate generation c)
    return pass
  else do
    let bytes ← read fun w => (w.versions c.version).reservedBytes
    modify (lose c)
    unlock c.slot
    retirePublished cfg c.slot c.version now
    return { pass with report := { pass.report with
      invalidatedPublished := pass.report.invalidatedPublished + 1
      retiredObjects := pass.report.retiredObjects + 1
      retiredBytes := Word.satAdd 64 pass.report.retiredBytes bytes } }

/-- Some replicas of the committed version are dead. -/
def sweepMixed (generation : Generation) (c : GcCandidate) (stale : ReplicaSet A) (pass : Pass A) :
    CatalogM A (Pass A) := do
  let bytes := ReplicaSet.reservedBytes stale
  releasePrunedAccounting c.version stale
  (LifecycleCounters.onPrunePublished bytes).zoom lifecycleVar
  (ReclaimDebt.onReclaim bytes).zoom reclaimVar
  unlock c.slot
  modify (pushCandidate generation c)
  return { pass with
    batch := pass.batch ++ tag c.version stale
    report := { pass.report with
      prunedObjects := pass.report.prunedObjects + 1
      prunedReplicas := pass.report.prunedReplicas + stale.length
      prunedReplicaBytes := Word.satAdd 64 pass.report.prunedReplicaBytes bytes } }

def sweepCandidate (cfg : CatalogConfig) (generation : Generation) (c : GcCandidate)
    (now : CatalogTick) (pass : Pass A) : CatalogM A (Pass A) := do
  if ← reachCandidate c then do
    lock c.slot
    if ← update (keepIf c fun w => w.committed c.slot = some c.version) then
      match ← pruneInvalidated c.version with
      | .allLive => do
        unlock c.slot
        modify (pushCandidate generation c)
        return pass
      | .allStale => sweepLost cfg generation c now pass
      | .mixed stale => sweepMixed generation c stale pass
    else do
      unlock c.slot
      return pass
  else return pass

def sweepRound (cfg : CatalogConfig) (generation : Generation) (now : CatalogTick) (pass : Pass A) :
    CatalogM A (Pass A ⊕ Pass A) := do
  match ← update (popCandidate generation) with
  | none => do
    (LivenessSweep.stop generation).zoom livenessVar
    return .inr pass
  | some c => do
    (LivenessSweep.countDown generation).zoom livenessVar
    let pass ← sweepCandidate cfg generation c now { pass with
      remaining := pass.remaining - 1
      scanned := pass.scanned + 1
      report := { pass.report with scannedCandidates := pass.report.scannedCandidates + 1 } }
    return .inl pass

def sweepGeneration (cfg : CatalogConfig) (generation : Generation) (now : CatalogTick)
    (pass : Pass A) : CatalogM A (Pass A) := do
  let candidates ← read (·.liveness.remainingOf generation)
  upTo (sweepRound cfg generation now) (min candidates pass.remaining) pass

/-- `retire_invalidated_published`: the report and the number of candidates scanned. -/
def retireInvalidatedPublished (cfg : CatalogConfig) (now : CatalogTick) (budget : CollectBudget)
    (report : CollectReport) : CatalogM A (CollectReport × ℕ) := do
  let pass ← sweepGeneration cfg .young now ⟨report, [], budget.maxCandidates, 0⟩
  if pass.remaining = 0 then do
    releaseBatch now pass.batch
    return (pass.report, pass.scanned)
  else do
    let pass ← sweepGeneration cfg .protectedQueue now pass
    releaseBatch now pass.batch
    return (pass.report, pass.scanned)

/-! ### Pending transactions -/

/-- `abort_pending`: whether the transaction was still staged with `v`. -/
def abortPending (cfg : CatalogConfig) (s : SlotRef) (id : TransactionId) (v : VersionRef)
    (now : CatalogTick) : CatalogM A Bool := do
  lock s
  match ← read (·.active s) with
  | none => do
    unlock s
    return false
  | some active =>
    if active.id = id ∧ active.phase = .staged v then do
      abortStaged cfg s v active.base now
      return true
    else do
      unlock s
      return false

def isCommitted (v : VersionRef) : CatalogM A Bool :=
  read fun w => (w.versions v).committed.isSome

namespace World

def popPending (w : World A) : Option PendingCandidate × World A :=
  match w.pending.candidates with
  | [] => (none, w)
  | c :: rest => (some c, { w with pending := { w.pending with candidates := rest } })

end World

/-- A pending candidate that has timed out or has lost a replica. -/
def expireCandidate (cfg : CatalogConfig) (c : PendingCandidate) (now : CatalogTick) (live : Bool)
    (report : CollectReport) : CatalogM A CollectReport := do
  if ← upgradeSlot c.slot then do
    if ← abortPending cfg c.slot c.transactionId c.pending now then
      return if live then { report with expiredPending := report.expiredPending + 1 }
        else { report with invalidatedPending := report.invalidatedPending + 1 }
    else return report
  else return report

def expirePendingRound (cfg : CatalogConfig) (now : CatalogTick) (report : CollectReport) :
    CatalogM A (CollectReport ⊕ CollectReport) := do
  match ← update popPending with
  | none => return .inr report
  | some c =>
    if ← upgradeVersion c.pending then
      if ← isCommitted c.pending then return .inl report
      else do
        let live ← allLive c.pending
        if live && now < c.deadline then do
          modify (enqueuePending c)
          return .inl report
        else do
          let report ← expireCandidate cfg c now live report
          return .inl report
    else return .inl report

def expirePending (cfg : CatalogConfig) (now : CatalogTick) (budget : CollectBudget)
    (report : CollectReport) : CatalogM A CollectReport := do
  let candidates ← read (·.pending.candidates.length)
  upTo (expirePendingRound cfg now) (min candidates budget.maxCandidates) report

/-- `pending_snapshot`: the owner, if the candidate is still staged. -/
def pendingSnapshot (c : PendingCandidate) : CatalogM A (Option WriteOwner) := do
  if ← upgradeVersion c.pending then
    if ← isCommitted c.pending then return none
    else if ← upgradeSlot c.slot then do
      lock c.slot
      let active ← read (·.active c.slot)
      unlock c.slot
      match active with
      | none => return none
      | some active =>
        return if active.id = c.transactionId ∧ active.phase = .staged c.pending then
          some active.owner else none
    else return none
  else return none

/-- One candidate of `revoke_pending_owners`, with the number revoked so far. -/
def revokeCandidate (cfg : CatalogConfig) (owners : List WriteOwner) (now : CatalogTick)
    (revoked : ℕ) (c : PendingCandidate) : CatalogM A ℕ := do
  match ← pendingSnapshot c with
  | none => return revoked
  | some owner =>
    if owner ∈ owners then do
      let aborted ← abortPending cfg c.slot c.transactionId c.pending now
      return if aborted then revoked + 1 else revoked
    else do
      modify (enqueuePending c)
      return revoked

namespace World

def lockStep (w : World A) : Option (Unit × World A) :=
  if w.stepGate then none else some ((), { w with stepGate := true })

def unlockStep (w : World A) : World A := { w with stepGate := false }

def tryLockStep (w : World A) : Bool × World A := (!w.stepGate, { w with stepGate := true })

/-- The write lock of the stage gate. -/
def closeStageGate (w : World A) : Option (Unit × World A) :=
  if w.pending.stageWriter = false ∧ w.pending.stageReaders = [] then
    some ((), { w with pending := { w.pending with stageWriter := true } })
  else none

def openStageGate (w : World A) : World A :=
  { w with pending := { w.pending with stageWriter := false } }

end World

/-- Takes all pending candidates, one after the other. -/
def drainRound (drained : List PendingCandidate) :
    CatalogM A (List PendingCandidate ⊕ List PendingCandidate) := do
  match ← update popPending with
  | none => return .inr drained
  | some c => return .inl (drained ++ [c])

def revokePendingOwners (cfg : CatalogConfig) (owners : List WriteOwner) (now : CatalogTick) :
    CatalogM A ℕ := do
  let owners := owners.filter fun owner => owner.sessionGeneration ≠ 0
  if owners.isEmpty then return 0
  else do
    await lockStep
    await closeStageGate
    let candidates ← iterate drainRound []
    modify openStageGate
    let revoked ← foldOver (revokeCandidate cfg owners now) candidates 0
    modify unlockStep
    return revoked

/-! ### Client cleanup -/

def revokeSessions (cfg : CatalogConfig) (sessions : List ClientSession) (now : CatalogTick) :
    CatalogM A ℕ :=
  revokePendingOwners cfg (sessions.map .forSession) now

/-- The part of `cleanup_batch` that works on objects. A cleanup exists only for a
session whose guard has been invalidated, by `mark_expired` or `fence`; the rest of the
batch invalidates segments and is left to the environment. -/
def cleanupBatch (cfg : CatalogConfig) (sessions : List ClientSession) (now : CatalogTick) :
    CatalogM A ℕ := do
  await fun w =>
    if sessions.all fun session => !w.activeSessions session then some ((), w) else none
  revokeSessions cfg sessions now

end Cakemaster.Object
