import Cakemaster.Object.World

/-!
# Versions: access control, replicas and tenant accounting

The atomic accesses to the state that one version owns. Liveness flags are read one
replica after the other, so they may change between two reads.
-/

namespace Cakemaster.Object

open Machine Machine.Prog Segment Tenant World

variable {A : UnitAllocator}

/-- The code of the catalog. -/
abbrev CatalogM (A : UnitAllocator) := Prog (World A)

/-! ### Access control -/

namespace AccessControl

/-- `for_commit`; the deadline is the soft pin of the base, if it has one. -/
def forCommit (baseSoftPin : CatalogTick) (baseHardPinned : Bool) (pins : ResolvedObjectPinRequest)
    (now : CatalogTick) : AccessControl where
  leaseUntil := 0
  recent := false
  softPinUntil :=
    match pins.softPin.action with
    | .preserve => if now < baseSoftPin then baseSoftPin else 0
    | .enable => if pins.softPin.ttlTicks ≠ 0 then Word.satAdd 64 now pins.softPin.ttlTicks else 0
    | .disable => 0
  hardPinned := baseHardPinned || pins.withHardPin

end AccessControl

namespace World

def setLease (v : VersionRef) (deadline : CatalogTick) : World A → World A :=
  modifyAccess v fun a => { a with leaseUntil := deadline }

end World

/-- The weak compare-and-swap on the lease of a version. -/
def swapLease (v : VersionRef) (current desired : CatalogTick) :
    CatalogM A (Except CatalogTick Unit) := do
  let spurious ← pick false
  if spurious then do
    let observed ← read (·.leaseUntil v)
    return .error observed
  else
    update fun w =>
      if w.leaseUntil v = current then (.ok (), w.setLease v desired)
      else (.error (w.leaseUntil v), w)

/-- One round of the loop of `acquire_lease`, with the deadline it has seen. -/
def leaseRound (v : VersionRef) (refreshAt desired current : CatalogTick) :
    CatalogM A (CatalogTick ⊕ CatalogTick) :=
  if current < refreshAt then do
    match ← swapLease v current desired with
    | .ok () => return .inr desired
    | .error observed => return .inl observed
  else return .inr current

def acquireLease (cfg : CatalogConfig) (v : VersionRef) (now : CatalogTick) :
    CatalogM A CatalogTick := do
  let current ← read (·.leaseUntil v)
  iterate (leaseRound v (Word.satAdd 64 now cfg.leaseRefreshTicks)
    (Word.satAdd 64 now cfg.leaseTtlTicks)) current

def recordAccess (cfg : CatalogConfig) (v : VersionRef) (now : CatalogTick) :
    CatalogM A CatalogTick := do
  let leaseUntil ← acquireLease cfg v now
  modify (modifyAccess v fun a => { a with recent := true })
  return leaseUntil

def takeRecent (v : VersionRef) : CatalogM A Bool :=
  update fun w => ((w.access v).recent, w.modifyAccess v fun a => { a with recent := false })

/-- Zero stands for no soft pin, which is never ahead of `now`. -/
def isSoftPinned (v : VersionRef) (now : CatalogTick) : CatalogM A Bool :=
  read fun w => now < (w.access v).softPinUntil

def expireSoftPin (v : VersionRef) (expected now : CatalogTick) : CatalogM A Bool :=
  if expected ≤ now then
    update fun w =>
      if (w.access v).softPinUntil = expected then
        (true, w.modifyAccess v fun a => { a with softPinUntil := 0 })
      else (false, w)
  else return false

/-! ### Liveness of replicas -/

def isLive (replica : ReplicaLease A) : CatalogM A Bool :=
  read fun w => w.pool.isLive replica.reservation

def everyLive : ReplicaSet A → CatalogM A Bool
  | [] => return true
  | replica :: rest => do
    if ← isLive replica then everyLive rest else return false

def someLive : ReplicaSet A → CatalogM A Bool
  | [] => return false
  | replica :: rest => do
    if ← isLive replica then return true else someLive rest

/-- `all_live`: there are some replicas, and all of them live. -/
def allLiveIn (replicas : ReplicaSet A) : CatalogM A Bool :=
  if replicas.isEmpty then return false else everyLive replicas

def allLive (v : VersionRef) : CatalogM A Bool := do
  let replicas ← read fun w => (w.versions v).replicas
  allLiveIn replicas

def hasLive (v : VersionRef) : CatalogM A Bool := do
  let replicas ← read fun w => (w.versions v).replicas
  someLive replicas

def countLive : ReplicaSet A → CatalogM A ℕ
  | [] => return 0
  | replica :: rest => do
    let live ← isLive replica
    let count ← countLive rest
    return (if live then 1 else 0) + count

/-- The live and the stale replicas, in their order. -/
def partitionLive : ReplicaSet A → CatalogM A (ReplicaSet A × ReplicaSet A)
  | [] => return ([], [])
  | replica :: rest => do
    let live ← isLive replica
    let parts ← partitionLive rest
    return if live then (replica :: parts.1, parts.2) else (parts.1, replica :: parts.2)

inductive ReplicaPrune (A : UnitAllocator)
  | allLive
  | allStale
  | mixed (stale : ReplicaSet A)

/-- Replaces the replicas of a version by the live part of a partition. -/
def keepLive (v : VersionRef) (live stale : ReplicaSet A) : CatalogM A Unit := do
  modify (modifyVersion v fun version =>
    { version with reservedBytes := version.reservedBytes - ReplicaSet.reservedBytes stale })
  modify (modifyVersion v fun version => { version with replicas := live })

/-- `prune_invalidated`, under the write lock of the replica set. -/
def pruneInvalidated (v : VersionRef) : CatalogM A (ReplicaPrune A) := do
  let replicas ← read fun w => (w.versions v).replicas
  if ← allLiveIn replicas then return .allLive
  else do
    let liveCount ← countLive replicas
    if liveCount = 0 then return .allStale
    else if liveCount = replicas.length then return .allLive
    else do
      let parts ← partitionLive replicas
      keepLive v parts.1 parts.2
      return .mixed parts.2

/-! ### Tenant accounting -/

namespace World

/-- `tenant_accounting`: the entry and bytes of a version's charge. -/
def tenantAccounting (w : World A) (v : VersionRef) : Option (TenantRef × ℕ) := do
  let charge ← (w.versions v).accounting
  let _ ← ReplicaSet.directReplicaClass (w.versions v).replicas
  let bytes ← Word.checkedMul 64 (w.versions v).content.logicalBytes (w.versions v).replicas.length
  some (charge.entry, bytes)

def chargePhase (w : World A) (v : VersionRef) : ChargePhase :=
  ((w.versions v).accounting.map (·.phase)).getD .released

def setChargePhase (v : VersionRef) (phase : ChargePhase) : World A → World A :=
  modifyVersion v fun version =>
    { version with accounting := version.accounting.map fun c => { c with phase } }

end World

def assertPhase (v : VersionRef) (expected : ChargePhase) : CatalogM A Unit :=
  modify fun w =>
    if w.chargePhase v = expected then w
    else { w with history := { w.history with chargeFault := true } }

def withAccounting (v : VersionRef) (charge : TenantRef → ℕ → CatalogM A Unit) :
    CatalogM A Unit := do
  match ← read (·.tenantAccounting v) with
  | none => return ()
  | some (entry, bytes) => charge entry bytes

def subtractFrom (entry : TenantRef) (value : Lens QuotaAccount ℕ) (bytes : ℕ) : CatalogM A Unit :=
  (QuotaAccount.atomicSaturatingSub value bytes).zoom (accountVar entry)

def addTo (entry : TenantRef) (value : Lens QuotaAccount ℕ) (bytes : ℕ) : CatalogM A Unit := do
  let _ ← (fetchAdd value bytes).zoom (accountVar entry)
  return ()

def commitAccounting (v : VersionRef) : CatalogM A Unit :=
  withAccounting v fun entry bytes => do
    assertPhase v .reserved
    addTo entry QuotaAccount.usedVar bytes
    modify (setChargePhase v .committed)

def abortAccounting (v : VersionRef) : CatalogM A Unit :=
  withAccounting v fun entry bytes => do
    assertPhase v .reserved
    subtractFrom entry QuotaAccount.demandVar bytes
    modify (setChargePhase v .released)

def markAccountingRetiring (v : VersionRef) : CatalogM A Unit :=
  withAccounting v fun entry bytes => do
    assertPhase v .committed
    addTo entry QuotaAccount.retiringVar bytes
    modify (setChargePhase v .retiring)

/-- `TenantQuotaCharge::release`: what is given back depends on the phase before. -/
def releaseAccounting (v : VersionRef) : CatalogM A Unit :=
  withAccounting v fun entry bytes => do
    let phase ← read (·.chargePhase v)
    modify (setChargePhase v .released)
    match phase with
    | .reserved => subtractFrom entry QuotaAccount.demandVar bytes
    | .committed => do
      subtractFrom entry QuotaAccount.usedVar bytes
      subtractFrom entry QuotaAccount.demandVar bytes
    | .retiring => do
      subtractFrom entry QuotaAccount.usedVar bytes
      subtractFrom entry QuotaAccount.retiringVar bytes
      subtractFrom entry QuotaAccount.demandVar bytes
    | .released => return ()

/-- Gives back the pruned replicas' part of a charge. -/
def releasePrunedAccounting (v : VersionRef) (stale : ReplicaSet A) : CatalogM A Unit := do
  let version ← read fun w => w.versions v
  match version.accounting, ReplicaSet.directReplicaClass stale with
  | some charge, some _ =>
    match Word.checkedMul 64 version.content.logicalBytes stale.length with
    | none => crash
    | some bytes => do
      assertPhase v .committed
      subtractFrom charge.entry QuotaAccount.usedVar bytes
      subtractFrom charge.entry QuotaAccount.demandVar bytes
  | _, _ => return ()

end Cakemaster.Object
