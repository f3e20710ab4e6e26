import Cakemaster.Segment.Types

/-!
# Objects: identities, configuration, requests and errors

The values that the object catalog and the object manager are called with, and the
errors that they return. A catalog tick is a `u64`, here a natural number.
-/

namespace Cakemaster.Object

open Machine Segment

abbrev NamespaceId := ℕ

abbrev CatalogTick := ℕ

abbrev TransactionId := ℕ

abbrev VersionId := ℕ

abbrev ReplicaId := ℕ

/-- An identity is also the shape of a lookup, which borrows its key. -/
structure ObjectIdentity where
  namespaceId : NamespaceId
  key : String
deriving DecidableEq

inductive ObjectKind
  | kvCache
  | tensor
  | general
deriving DecidableEq

structure ObjectContent where
  logicalBytes : ℕ
  kind : ObjectKind
deriving DecidableEq

structure ObjectCommit where
  checksum : Option ℕ
deriving DecidableEq

inductive WriteMode
  | insert
  | upsert
deriving DecidableEq

/-! ### Sessions and owners -/

/-- One incarnation of a client. The registry hands out generations from 1. -/
structure ClientSession where
  clientId : ClientId
  generation : ℕ
  generation_pos : 0 < generation
deriving DecidableEq

/-- Generation zero identifies direct callers without a managed session. -/
structure WriteOwner where
  client : ClientId
  sessionGeneration : ℕ
deriving DecidableEq

def WriteOwner.forSession (session : ClientSession) : WriteOwner :=
  ⟨session.clientId, session.generation⟩

/-- The capability to stage a write: a direct caller, or the guard of a session. -/
inductive WriteAdmission
  | unmanaged (client : ClientId)
  | guarded (session : ClientSession)
deriving DecidableEq

def WriteAdmission.owner : WriteAdmission → WriteOwner
  | unmanaged client => ⟨client, 0⟩
  | guarded session => .forSession session

theorem forSession_injective (h : WriteOwner.forSession a = .forSession b) :
    a = b := by
  cases a
  cases b
  simp only [WriteOwner.forSession, WriteOwner.mk.injEq] at h
  obtain ⟨rfl, rfl⟩ := h
  rfl

/-! ### Pins -/

inductive SoftPinAction
  | preserve
  | enable
  | disable
deriving DecidableEq

structure ObjectPinRequest where
  softPinAction : SoftPinAction
  softPinTtlTicks : Option ℕ
  withHardPin : Bool
deriving DecidableEq

structure ResolvedSoftPinRequest where
  action : SoftPinAction
  ttlTicks : ℕ
deriving DecidableEq

structure ResolvedObjectPinRequest where
  softPin : ResolvedSoftPinRequest
  withHardPin : Bool
deriving DecidableEq

/-! ### Catalog configuration -/

inductive ObjectCatalogConfigError
  | zeroExpectedObjects
  | zeroLeaseTtl
  | leaseRefreshExceedsTtl (leaseTtlTicks leaseRefreshTicks : ℕ)
  | zeroPendingTimeout
  | zeroMaxRetiredBytes
  | defaultSoftPinTtlExceedsMaximum (defaultSoftPinTtlTicks maxSoftPinTtlTicks : ℕ)
  | softPinTtlRequiresEnable
  | softPinTtlExceedsMaximum (softPinTtlTicks maxSoftPinTtlTicks : ℕ)
deriving DecidableEq

structure ObjectCatalogConfig where
  expectedObjects : ℕ
  leaseTtlTicks : ℕ
  leaseRefreshTicks : ℕ
  pendingTimeoutTicks : ℕ
  emptySlotGraceTicks : ℕ
  maxRetiredBytes : ℕ
  defaultSoftPinTtlTicks : ℕ
  maxSoftPinTtlTicks : ℕ
  allowEvictSoftPinnedObjects : Bool
deriving DecidableEq

namespace ObjectCatalogConfig

def new (expectedObjects : ℕ) : ObjectCatalogConfig where
  expectedObjects := expectedObjects
  leaseTtlTicks := 10000
  leaseRefreshTicks := 5000
  pendingTimeoutTicks := 30000
  emptySlotGraceTicks := 60000
  maxRetiredBytes := 2 ^ 30
  defaultSoftPinTtlTicks := 30 * 60 * 1000
  maxSoftPinTtlTicks := 24 * 60 * 60 * 1000
  allowEvictSoftPinnedObjects := true

def default : ObjectCatalogConfig := new (64 * 1024)

def validate (c : ObjectCatalogConfig) : Except ObjectCatalogConfigError Unit :=
  if c.expectedObjects = 0 then .error .zeroExpectedObjects
  else if c.leaseTtlTicks = 0 then .error .zeroLeaseTtl
  else if c.leaseTtlTicks < c.leaseRefreshTicks then
    .error (.leaseRefreshExceedsTtl c.leaseTtlTicks c.leaseRefreshTicks)
  else if c.pendingTimeoutTicks = 0 then .error .zeroPendingTimeout
  else if c.maxRetiredBytes = 0 then .error .zeroMaxRetiredBytes
  else if c.maxSoftPinTtlTicks < c.defaultSoftPinTtlTicks then
    .error (.defaultSoftPinTtlExceedsMaximum c.defaultSoftPinTtlTicks c.maxSoftPinTtlTicks)
  else .ok ()

def resolvePinRequest (c : ObjectCatalogConfig) (request : ObjectPinRequest) :
    Except ObjectCatalogConfigError ResolvedObjectPinRequest := do
  let ttlTicks ← match request.softPinAction with
    | .preserve | .disable =>
      if request.softPinTtlTicks.isSome then .error .softPinTtlRequiresEnable else .ok 0
    | .enable =>
      let ttlTicks := request.softPinTtlTicks.getD c.defaultSoftPinTtlTicks
      if c.maxSoftPinTtlTicks < ttlTicks then
        .error (.softPinTtlExceedsMaximum ttlTicks c.maxSoftPinTtlTicks)
      else .ok ttlTicks
  .ok ⟨⟨request.softPinAction, ttlTicks⟩, request.withHardPin⟩

end ObjectCatalogConfig

/-- A catalog's configuration, which is valid, and its identity, which stands for the
address that transactions are compared by. -/
structure CatalogConfig extends ObjectCatalogConfig where
  catalogId : ℕ
  valid : toObjectCatalogConfig.validate = .ok ()

theorem CatalogConfig.leaseRefresh_le (c : CatalogConfig) :
    c.leaseRefreshTicks ≤ c.leaseTtlTicks := by
  have h := c.valid
  simp only [ObjectCatalogConfig.validate] at h
  repeat' (split at h <;> try cases h)
  omega

/-- The default configuration is valid, so `ObjectCatalog::new` does not panic. -/
def CatalogConfig.default : CatalogConfig := ⟨.default, 0, by decide⟩

/-! ### Reclamation -/

structure CollectBudget where
  maxCandidates : ℕ
  maxReclaims : ℕ
  maxEmptySlots : ℕ
deriving DecidableEq

structure CollectReport where
  busy : Bool := false
  scannedCandidates : ℕ := 0
  expiredPending : ℕ := 0
  scannedSoftPins : ℕ := 0
  expiredSoftPins : ℕ := 0
  invalidatedPending : ℕ := 0
  invalidatedPublished : ℕ := 0
  prunedObjects : ℕ := 0
  prunedReplicas : ℕ := 0
  prunedReplicaBytes : ℕ := 0
  retiredObjects : ℕ := 0
  retiredBytes : ℕ := 0
  reclaimedObjects : ℕ := 0
  reclaimedBytes : ℕ := 0
  reclaimedMemoryBytes : ℕ := 0
  removedEmptySlots : ℕ := 0
  scopedRetiredObjects : ℕ := 0
  scopedRetiredBytes : ℕ := 0
deriving DecidableEq

inductive ReclaimFilter
  | any
  | ofClass (replicaClass : ReplicaClass)
  | scope (namespaceId : NamespaceId) (replicaClass : ReplicaClass)
deriving DecidableEq

structure ReclaimTarget where
  filter : ReclaimFilter
  bytes : ℕ
deriving DecidableEq

/-! ### Errors -/

inductive BeginError
  | emptyKey
  | invalidPinRequest (error : ObjectCatalogConfigError)
  | alreadyExists
  | writeInProgress
  | reclamationBacklog
deriving DecidableEq

inductive StageError
  | catalogDropped
  | claimLost
  | ownerInactive
  | zeroSize
  | noReplicas
  | replicaTooSmall (replica : ReplicaId) (requiredBytes capacityBytes : ℕ)
  | replicaInvalidated (replica : ReplicaId)
deriving DecidableEq

inductive CommitError
  | foreignCatalog
  | transactionGone
  | notStaged
  | commitConflict
  | replicasInvalidated
deriving DecidableEq

inductive AbortError
  | foreignCatalog
  | transactionGone
  | alreadyCommitted
deriving DecidableEq

inductive LookupError
  | notFound
  | notReady
deriving DecidableEq

inductive RemoveError
  | notFound
  | notReady
  | leased (expiresAt : CatalogTick)
  | hardPinned
deriving DecidableEq

end Cakemaster.Object
