import Cakemaster.Object.Version

/-!
# The per-key write transaction

A slot has a committed pointer, read without a lock, and at most one transaction
under its control mutex. The programs follow the source act by act; data that only
the mutex protects is read and written together.
-/

namespace Cakemaster.Object

open Machine Machine.Prog Segment Tenant World

variable {A : UnitAllocator}

structure WriteClaim where
  slot : SlotRef
  identity : ObjectIdentity
  id : TransactionId
  admission : WriteAdmission
  startedAt : CatalogTick
deriving DecidableEq

structure WriteTransaction where
  catalog : ℕ
  slot : SlotRef
  pending : VersionRef
  id : TransactionId
deriving DecidableEq

inductive WriteResolution
  | active (transaction : WriteTransaction)
  | committed (version : VersionRef)
deriving DecidableEq

/-- A temporary quota reservation of a tenant entry. -/
structure QuotaReservationGuard where
  entry : TenantRef
  bytes : ℕ
deriving DecidableEq

namespace World

def lockSlot (s : SlotRef) (w : World A) : Option (Unit × World A) :=
  if s < w.slotCount ∧ (w.slots s).locked = false then
    some ((), w.modifySlot s fun x => { x with locked := true })
  else none

def unlockSlot (s : SlotRef) : World A → World A := modifySlot s fun x => { x with locked := false }

def setActive (s : SlotRef) (active : Option ActiveTransaction) : World A → World A :=
  modifySlot s fun x => { x with active }

def committed (w : World A) (s : SlotRef) : Option VersionRef := (w.slots s).committed

def active (w : World A) (s : SlotRef) : Option ActiveTransaction := (w.slots s).active

end World

def lock (s : SlotRef) : CatalogM A Unit := await (lockSlot s)

def unlock (s : SlotRef) : CatalogM A Unit := modify (unlockSlot s)

/-- `Weak::upgrade` of a slot. The index keeps a slot alive; without it only a local
variable of some running call may. -/
def upgradeSlot (s : SlotRef) : CatalogM A Bool := do
  let alive ← pick false
  read fun w => w.indexed s || alive

/-- `Weak::upgrade` of a version, which lives until it is reclaimed. -/
def upgradeVersion (v : VersionRef) : CatalogM A Bool := read fun w => !(w.versions v).reclaimed

def committedPointsTo (s : SlotRef) (v : VersionRef) : CatalogM A Bool :=
  read fun w => w.committed s = some v

def hasCommitted (s : SlotRef) : CatalogM A Bool := read fun w => (w.committed s).isSome

def requestLiveness : CatalogM A Unit := LivenessSweep.request.zoom livenessVar

def enqueueEmpty (cfg : CatalogConfig) (s : SlotRef) (now : CatalogTick) : CatalogM A Unit :=
  modify fun w => { w with
    emptySlots := w.emptySlots ++
      [⟨(w.slots s).identity, s, Word.satAdd 64 now cfg.emptySlotGraceTicks⟩] }

/-- Whether the version a transaction would replace has lost all its replicas. -/
def baseIsInvalid : Option VersionRef → CatalogM A Bool
  | none => return false
  | some base => do
    let live ← hasLive base
    return !live

/-! ### begin_write -/

namespace World

/-- A new slot that holds a claim from the start. -/
def insertSlot (identity : ObjectIdentity) (owner : WriteOwner) (pins : ResolvedObjectPinRequest)
    (w : World A) : World A :=
  { w with
    slots := Function.update w.slots w.slotCount
      { identity
        committed := none
        nextTransactionId := 2
        nextVersionId := 1
        active := some ⟨1, owner, none, pins, .claimed⟩
        locked := false
        counted := 0 }
    slotCount := w.slotCount + 1
    index := { w.index with entries := w.index.entries.insert identity w.slotCount }
    history := { w.history with begun := w.history.begun ++ [(w.slotCount, 1)] } }

/-- The slot of an identity, and whether it was just made, under the lock of its bucket. -/
def findOrInsert (identity : ObjectIdentity) (owner : WriteOwner) (pins : ResolvedObjectPinRequest)
    (w : World A) : (SlotRef × Bool) × World A :=
  match w.lookupSlot identity with
  | some s => ((s, false), w)
  | none => ((w.slotCount, true), w.insertSlot identity owner pins)

/-- `allocate_transaction_id` and the new claim, in the slot's critical section. -/
def claimSlot (s : SlotRef) (owner : WriteOwner) (base : Option VersionRef)
    (pins : ResolvedObjectPinRequest) (w : World A) : World A :=
  (w.modifySlot s fun x =>
    { x with
      nextTransactionId := x.nextTransactionId + 1
      active := some ⟨x.nextTransactionId, owner, base, pins, .claimed⟩ }).logBegun s
    (w.slots s).nextTransactionId

def countSlot (s : SlotRef) (w : World A) : World A :=
  { w.modifySlot s fun x => { x with counted := x.counted + 1 } with
    index := { w.index with slots := w.index.slots.add 1 } }

end World

/-- The critical section of `begin_write` on an indexed slot. The id is 64 bits wide;
running out of ids panics. -/
def claimLocked (s : SlotRef) (admission : WriteAdmission) (mode : WriteMode)
    (pins : ResolvedObjectPinRequest) (now : CatalogTick) :
    CatalogM A (Except BeginError WriteClaim) := do
  let slot ← read fun w => w.slots s
  if slot.active.isSome then do
    unlock s
    return .error .writeInProgress
  else do
    let base ← read (·.committed s)
    if mode = .insert ∧ base.isSome then do
      unlock s
      return .error .alreadyExists
    else if slot.nextTransactionId = Word.maxOf 64 then crash
    else do
      modify (claimSlot s admission.owner base pins)
      LifecycleCounters.onClaim.zoom lifecycleVar
      unlock s
      return .ok ⟨s, slot.identity, slot.nextTransactionId, admission, now⟩

def beginRound (identity : ObjectIdentity) (admission : WriteAdmission) (mode : WriteMode)
    (pins : ResolvedObjectPinRequest) (now : CatalogTick) :
    CatalogM A (Unit ⊕ Except BeginError WriteClaim) := do
  match ← update (findOrInsert identity admission.owner pins) with
  | (s, true) => do
    modify (countSlot s)
    LifecycleCounters.onClaim.zoom lifecycleVar
    return .inr (.ok ⟨s, identity, 1, admission, now⟩)
  | (s, false) => do
    lock s
    if ← read (·.indexed s) then do
      let result ← claimLocked s admission mode pins now
      return .inr result
    else do
      unlock s
      return .inl ()

def beginWriteResolved (cfg : CatalogConfig) (identity : ObjectIdentity)
    (admission : WriteAdmission) (mode : WriteMode) (pins : ResolvedObjectPinRequest)
    (now : CatalogTick) : CatalogM A (Except BeginError WriteClaim) :=
  if identity.key = "" then return .error .emptyKey
  else do
    let retired ← read fun w => w.lifecycle.retiredBytes.value
    if cfg.maxRetiredBytes ≤ retired then return .error .reclamationBacklog
    else iterate (fun () => beginRound identity admission mode pins now) ()

def beginWrite (cfg : CatalogConfig) (identity : ObjectIdentity) (admission : WriteAdmission)
    (mode : WriteMode) (pins : ObjectPinRequest) (now : CatalogTick) :
    CatalogM A (Except BeginError WriteClaim) :=
  match cfg.resolvePinRequest pins with
  | .error err => return .error (.invalidPinRequest err)
  | .ok pins => beginWriteResolved cfg identity admission mode pins now

/-! ### Dropping a claim, aborting -/

/-- `Drop for WriteClaim`, unless the claim was staged. -/
def dropClaim (cfg : CatalogConfig) (claim : WriteClaim) : CatalogM A Unit := do
  if ← upgradeSlot claim.slot then do
    lock claim.slot
    match ← read (·.active claim.slot) with
    | none => unlock claim.slot
    | some active =>
      if active.id ≠ claim.id ∨ active.phase ≠ .claimed then unlock claim.slot
      else do
        let invalid ← baseIsInvalid active.base
        modify (setActive claim.slot none)
        LifecycleCounters.onClaimDropped.zoom lifecycleVar
        let published ← hasCommitted claim.slot
        unlock claim.slot
        guarded (!published) (enqueueEmpty cfg claim.slot claim.startedAt)
        guarded invalid requestLiveness
  else return ()

namespace World

/-- The transaction is given up, and its version is off its slot for good. -/
def abandon (s : SlotRef) (v : VersionRef) (now : CatalogTick) (w : World A) : World A :=
  ((w.setActive s none).setStanding v (.left now)).logResolved ⟨s, w.activeId s, v, none⟩

def retire (v : VersionRef) (reservedBytes : ℕ) (reclaimAfter : CatalogTick) (w : World A) :
    World A :=
  { w with retired := w.retired ++ [⟨v, reservedBytes, reclaimAfter⟩] }

def isMemory (w : World A) (v : VersionRef) : Bool :=
  ReplicaSet.directReplicaClass (w.versions v).replicas = some .memory

end World

def retireAbortedPending (v : VersionRef) (now : CatalogTick) : CatalogM A Unit := do
  let bytes ← read fun w => (w.versions v).reservedBytes
  let memory ← read (·.isMemory v)
  abortAccounting v
  (LifecycleCounters.onAbortPending bytes memory).zoom lifecycleVar
  modify (retire v bytes now)

/-- What `abort` and `abort_pending` share: the slot is locked and its transaction is
staged with `v`. -/
def abortStaged (cfg : CatalogConfig) (s : SlotRef) (v : VersionRef) (base : Option VersionRef)
    (now : CatalogTick) : CatalogM A Unit := do
  let invalid ← baseIsInvalid base
  modify (abandon s v now)
  let published ← hasCommitted s
  unlock s
  retireAbortedPending v now
  guarded (!published) (enqueueEmpty cfg s now)
  guarded invalid requestLiveness

def abort (cfg : CatalogConfig) (transaction : WriteTransaction) (now : CatalogTick) :
    CatalogM A (Except AbortError Unit) := do
  let s := transaction.slot
  if transaction.catalog ≠ cfg.catalogId then return .error .foreignCatalog
  else if ← upgradeSlot s then do
    lock s
    match ← read (·.active s) with
    | none => do
      let committed ← read fun w => (w.committed s).any fun v => (w.versions v).origin = transaction.id
      unlock s
      return .error (if committed then .alreadyCommitted else .transactionGone)
    | some active =>
      if active.id = transaction.id ∧ active.phase = .staged transaction.pending then do
        abortStaged cfg s transaction.pending active.base now
        return .ok ()
      else do
        unlock s
        return .error .transactionGone
  else return .error .transactionGone

/-! ### stage -/

def isActive (admission : WriteAdmission) : CatalogM A Bool :=
  match admission with
  | .unmanaged _ => return true
  | .guarded session => read fun w => w.activeSessions session

/-- The loop of `validate_stage_replicas`, with the first undersized replica so far. -/
def validateReplicas (requiredBytes : ℕ) :
    ReplicaSet A → Option (ReplicaId × ℕ) → CatalogM A (Except StageError Unit)
  | [], none => return .ok ()
  | [], some (replica, capacityBytes) =>
    return .error (.replicaTooSmall replica requiredBytes capacityBytes)
  | replica :: rest, undersized => do
    if ← isLive replica then
      let capacityBytes := replica.reservation.requestedBytes
      validateReplicas requiredBytes rest
        (if undersized = none ∧ capacityBytes < requiredBytes then some (replica.id, capacityBytes)
          else undersized)
    else return .error (.replicaInvalidated replica.id)

def validateStageReplicas (replicas : ReplicaSet A) (requiredBytes : ℕ) :
    CatalogM A (Except StageError Unit) :=
  if replicas.isEmpty then return .error .noReplicas
  else validateReplicas requiredBytes replicas none

def dropReservations (reservations : List (Reservation A)) : CatalogM A Unit :=
  (ReplicaAllocator.dropEach reservations).zoom poolVar

/-- `Drop for QuotaReservationGuard`. -/
def dropGuard : Option QuotaReservationGuard → CatalogM A Unit
  | none => return ()
  | some reservation =>
    (QuotaAccount.releaseReserved reservation.bytes).zoom (accountVar reservation.entry)

/-- What an unsuccessful `stage` gives up before it has made a version. -/
def dropStageInputs (cfg : CatalogConfig) (claim : WriteClaim) (replicas : ReplicaSet A)
    (accounting : Option QuotaReservationGuard) : CatalogM A Unit := do
  dropGuard accounting
  dropReservations replicas.reservations
  dropClaim cfg claim

namespace World

def newVersion (version : ObjectVersion A) (w : World A) : VersionRef × World A :=
  (w.versionCount, { w with
    versions := Function.update w.versions w.versionCount version
    versionCount := w.versionCount + 1 })

def stageSlot (s : SlotRef) (v : VersionRef) (active : ActiveTransaction) (w : World A) : World A :=
  (w.setActive s (some { active with phase := .staged v })).setStanding v (.staged s)

def enterStageGate (v : VersionRef) (w : World A) : Option (Unit × World A) :=
  if w.pending.stageWriter then none
  else some ((), { w with
    pending := { w.pending with stageReaders := v :: w.pending.stageReaders } })

def leaveStageGate (v : VersionRef) (w : World A) : World A :=
  { w with pending := { w.pending with stageReaders := w.pending.stageReaders.erase v } }

def enqueuePending (candidate : PendingCandidate) (w : World A) : World A :=
  { w with pending := { w.pending with candidates := w.pending.candidates ++ [candidate] } }

/-- The last look of a stage call at its session guard. -/
def checkAdmission (admission : WriteAdmission) (v : VersionRef) (w : World A) : Bool × World A :=
  have passed := match admission with
    | .unmanaged _ => true
    | .guarded session => w.activeSessions session
  (passed, w.modifyVersion v fun version =>
    { version with admissionCheck := if passed then .passed else .refused })

/-- The replicas of a version that nobody owns any more. -/
def takeReplicas (v : VersionRef) (w : World A) : ReplicaSet A × World A :=
  ((w.versions v).replicas, w.modifyVersion v fun version =>
    { version with replicas := [], reservedBytes := 0, reclaimed := true })

end World

/-- A pending version that was never staged goes out of scope. -/
def dropVersion (v : VersionRef) : CatalogM A Unit := do
  releaseAccounting v
  let replicas ← update (takeReplicas v)
  dropReservations replicas.reservations

def pendingVersion (claim : WriteClaim) (content : ObjectContent) (replicas : ReplicaSet A)
    (accounting : Option QuotaReservationGuard) : ObjectVersion A where
  origin := claim.id
  owner := claim.admission.owner
  identity := claim.identity
  content := content
  replicas := replicas
  reservedBytes := ReplicaSet.reservedBytes replicas
  accounting := accounting.map fun reservation => ⟨reservation.entry, .reserved⟩
  committed := none
  reclaimed := false
  admissionCheck := .ahead
  standing := .fresh

/-- The part of `stage` after the version is in its slot and the slot is unlocked. -/
def finishStage (cfg : CatalogConfig) (claim : WriteClaim) (v : VersionRef) :
    CatalogM A (Except StageError WriteTransaction) := do
  let transaction : WriteTransaction := ⟨cfg.catalogId, claim.slot, v, claim.id⟩
  let deadline := Word.satAdd 64 claim.startedAt cfg.pendingTimeoutTicks
  modify (enqueuePending ⟨claim.slot, v, claim.id, deadline⟩)
  modify (leaveStageGate v)
  if ← update (checkAdmission claim.admission v) then return .ok transaction
  else do
    let _ ← abort cfg transaction claim.startedAt
    return .error .ownerInactive

/-- The claim was lost: nothing is staged. -/
def loseStage (cfg : CatalogConfig) (claim : WriteClaim) (v : VersionRef) :
    CatalogM A (Except StageError WriteTransaction) := do
  unlock claim.slot
  modify (leaveStageGate v)
  dropVersion v
  dropClaim cfg claim
  return .error .claimLost

/-- The part of `stage` under the stage gate. -/
def stageVersion (cfg : CatalogConfig) (claim : WriteClaim) (v : VersionRef) :
    CatalogM A (Except StageError WriteTransaction) := do
  let reservedBytes ← read fun w => (w.versions v).reservedBytes
  await (enterStageGate v)
  lock claim.slot
  match ← read (·.active claim.slot) with
  | none => loseStage cfg claim v
  | some active =>
    if active.id ≠ claim.id ∨ active.owner ≠ claim.admission.owner ∨ active.phase ≠ .claimed then
      loseStage cfg claim v
    else do
      modify (stageSlot claim.slot v active)
      (LifecycleCounters.onStage reservedBytes).zoom lifecycleVar
      unlock claim.slot
      finishStage cfg claim v

def stageInner (cfg : CatalogConfig) (claim : WriteClaim) (content : ObjectContent)
    (replicas : ReplicaSet A) (accounting : Option QuotaReservationGuard) :
    CatalogM A (Except StageError WriteTransaction) := do
  if ← isActive claim.admission then
    if content.logicalBytes = 0 then do
      dropStageInputs cfg claim replicas accounting
      return .error .zeroSize
    else do
      match ← validateStageReplicas replicas content.logicalBytes with
      | .error err => do
        dropStageInputs cfg claim replicas accounting
        return .error err
      | .ok () => do
        if ← upgradeSlot claim.slot then do
          let v ← update (newVersion (pendingVersion claim content replicas accounting))
          stageVersion cfg claim v
        else do
          dropStageInputs cfg claim replicas accounting
          return .error .claimLost
  else do
    dropStageInputs cfg claim replicas accounting
    return .error .ownerInactive

/-! ### commit -/

namespace World

/-- `allocate_version_id`: running out of ids panics. -/
def allocateVersionId (s : SlotRef) (w : World A) : Option (VersionId × World A) :=
  if (w.slots s).nextVersionId = Word.maxOf 64 then none
  else some ((w.slots s).nextVersionId,
    w.modifySlot s fun x => { x with nextVersionId := x.nextVersionId + 1 })

/-- `initialize_commit`: a second call panics. -/
def initializeCommit (v : VersionRef) (committed : CommittedVersion) (w : World A) :
    Option (Unit × World A) :=
  if (w.versions v).committed.isSome then none
  else some ((), w.modifyVersion v fun version => { version with committed := some committed })

def detach (base : Option VersionRef) (w : World A) : World A :=
  match base with
  | none => w
  | some old => w.setStanding old .detached

/-- `publish_committed` of a new version, which also ends its transaction; the new
version's candidate is in the hand of the commit. -/
def publish (s : SlotRef) (v : VersionRef) (base : Option VersionRef) (w : World A) : World A :=
  let w' := w.modifySlot s fun x => { x with committed := some v, active := none }
  let w' := (w'.detach base).setStanding v (.published s)
  { w'.logResolved ⟨s, w.activeId s, v, some (w.versionId v)⟩ with
    eviction := { w.eviction with hand := ⟨s, v⟩ :: w.eviction.hand } }

/-- The final sample of the lease of a replaced version. -/
def sampleReplaced (old : VersionRef) (w : World A) : CatalogTick × World A :=
  (w.leaseUntil old, w.setStanding old (.left (w.leaseUntil old)))

def pushSoftPin (candidate : SoftPinCandidate) (w : World A) : World A :=
  { w with eviction := { w.eviction with softPins := w.eviction.softPins ++ [candidate] } }

def addHandle (v : VersionRef) (w : World A) : World A :=
  { w with custody := { w.custody with handles := v :: w.custody.handles } }

end World

/-- The soft pin of the base of a transaction, 0 if there is none. -/
def softPinOf : Option VersionRef → CatalogM A CatalogTick
  | none => return 0
  | some base => read fun w => (w.access base).softPinUntil

/-- The base of a transaction is still what its slot has committed. -/
def baseMatches (s : SlotRef) : Option VersionRef → CatalogM A Bool
  | none => do
    let published ← hasCommitted s
    return !published
  | some base => committedPointsTo s base

/-- A commit that repeats one: the slot has no transaction. -/
def commitAgain (s : SlotRef) (id : TransactionId) (commit : ObjectCommit) :
    CatalogM A (Except CommitError VersionRef) := do
  match ← read (·.committed s) with
  | none => do
    unlock s
    return .error .transactionGone
  | some v => do
    let version ← read fun w => w.versions v
    unlock s
    if version.origin ≠ id then return .error .transactionGone
    else if version.committed.map (·.commit) = some commit then do
      modify (addHandle v)
      return .ok v
    else return .error .commitConflict

/-- The replaced version leaves its slot with the lease it has after the publication. -/
def retireReplaced : Option VersionRef → CatalogM A Unit
  | none => return ()
  | some old => do
    markAccountingRetiring old
    let reclaimAfter ← update (sampleReplaced old)
    modify fun w => w.retire old (w.versions old).reservedBytes reclaimAfter

/-- The bytes of the replaced version, and its bytes in memory. -/
def replacedBytes : Option VersionRef → CatalogM A (Option ℕ × ℕ)
  | none => return (none, 0)
  | some old => do
    let bytes ← read fun w => (w.versions old).reservedBytes
    let memory ← read (·.isMemory old)
    return (some bytes, if memory then bytes else 0)

/-- The part of `commit` after the slot is unlocked. -/
def finishCommit (s : SlotRef) (v : VersionRef) (base : Option VersionRef) :
    CatalogM A (Except CommitError VersionRef) := do
  modify (pushCandidate .young ⟨s, v⟩)
  let deadline ← read fun w => (w.access v).softPinUntil
  guarded (deadline ≠ 0) (modify (pushSoftPin ⟨⟨s, v⟩, deadline⟩))
  retireReplaced base
  let live ← allLive v
  guarded (!live) requestLiveness
  modify (addHandle v)
  return .ok v

/-- The part of `commit` that cannot fail any more, with the slot locked. -/
def publishStaged (s : SlotRef) (v : VersionRef) (base : Option VersionRef)
    (pins : ResolvedObjectPinRequest) (commit : ObjectCommit) (now : CatalogTick) :
    CatalogM A (Except CommitError VersionRef) := do
  let id ← await (allocateVersionId s)
  let baseSoftPin ← softPinOf base
  let baseHardPinned ← read fun w => base.any fun b => (w.access b).hardPinned
  await (initializeCommit v
    ⟨id, commit, AccessControl.forCommit baseSoftPin baseHardPinned pins now⟩)
  commitAccounting v
  modify (publish s v base)
  let bytes ← read fun w => (w.versions v).reservedBytes
  let replaced ← replacedBytes base
  (LifecycleCounters.onCommit bytes replaced.1 replaced.2).zoom lifecycleVar
  unlock s
  finishCommit s v base

/-- The critical section of `commit` on a slot with a transaction. -/
def commitActive (transaction : WriteTransaction) (active : ActiveTransaction)
    (commit : ObjectCommit) (now : CatalogTick) : CatalogM A (Except CommitError VersionRef) := do
  let s := transaction.slot
  if active.id ≠ transaction.id then do
    unlock s
    return .error .transactionGone
  else
    match active.phase with
    | .claimed => do
      unlock s
      return .error .notStaged
    | .staged v =>
      if v ≠ transaction.pending then do
        unlock s
        return .error .transactionGone
      else if ← allLive v then do
        if ← baseMatches s active.base then
          publishStaged s v active.base active.pins commit now
        else do
          unlock s
          return .error .transactionGone
      else do
        unlock s
        return .error .replicasInvalidated

/-- `commit`; a successful call owns a handle of the version. -/
def commit (cfg : CatalogConfig) (transaction : WriteTransaction) (commit : ObjectCommit)
    (now : CatalogTick) : CatalogM A (Except CommitError VersionRef) := do
  if transaction.catalog ≠ cfg.catalogId then return .error .foreignCatalog
  else if ← upgradeSlot transaction.slot then do
    lock transaction.slot
    match ← read (·.active transaction.slot) with
    | none => commitAgain transaction.slot transaction.id commit
    | some active => commitActive transaction active commit now
  else return .error .transactionGone

/-! ### resolve_write -/

def resolveWrite (cfg : CatalogConfig) (identity : ObjectIdentity) :
    CatalogM A (Except LookupError WriteResolution) := do
  match ← read (·.lookupSlot identity) with
  | none => return .error .notFound
  | some s => do
    lock s
    match ← read (·.active s) with
    | some active => do
      unlock s
      match active.phase with
      | .claimed => return .error .notReady
      | .staged v => return .ok (.active ⟨cfg.catalogId, s, v, active.id⟩)
    | none => do
      let committed ← read (·.committed s)
      unlock s
      match committed with
      | none => return .error .notFound
      | some v => return .ok (.committed v)

end Cakemaster.Object
