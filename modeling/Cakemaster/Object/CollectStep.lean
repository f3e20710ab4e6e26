import Cakemaster.Object.Collector

/-!
# The collector step

Eviction with and without targets, reclamation of retired versions, removal of empty
slots, and the bounded step that runs them all.
-/

namespace Cakemaster.Object

open Machine Machine.Prog Segment World

variable {A : UnitAllocator}

/-! ### Eviction -/

structure RetiredBytes where
  physical : ℕ
  quota : ℕ
deriving DecidableEq

def RetiredBytes.zero : RetiredBytes := ⟨0, 0⟩

def isPinned (cfg : CatalogConfig) (v : VersionRef) (now : CatalogTick) : CatalogM A Bool := do
  if ← read fun w => (w.access v).hardPinned then return true
  else do
    let soft ← isSoftPinned v now
    return soft && !cfg.allowEvictSoftPinnedObjects

def isLeased (v : VersionRef) (now : CatalogTick) : CatalogM A Bool :=
  read fun w => now < w.leaseUntil v

/-- The slot has no transaction and the version is on its pointer. -/
def isIdleWith (s : SlotRef) (v : VersionRef) : CatalogM A Bool := do
  if (← read (·.active s)).isSome then return false else committedPointsTo s v

def accessedSince (c : GcCandidate) (now : CatalogTick) : CatalogM A Bool := do
  if ← takeRecent c.version then return true else update (sampleEvicted c now)

/-- The candidate stays, in the given queue. -/
def spare (generation : Generation) (c : GcCandidate) (report : CollectReport) :
    CatalogM A (CollectReport × RetiredBytes) := do
  unlock c.slot
  modify (pushCandidate generation c)
  return (report, .zero)

/-- The part of `evict_candidate` that detaches the version. -/
def evictUnread (cfg : CatalogConfig) (c : GcCandidate) (now : CatalogTick)
    (report : CollectReport) :
    CatalogM A (CollectReport × RetiredBytes) := do
  modify (withdraw c.slot c.version)
  if ← accessedSince c now then do
    modify (restore c.slot c.version)
    spare .protectedQueue c report
  else do
    let bytes ← read fun w => (w.versions c.version).reservedBytes
    let accounted ← read (·.tenantAccounting c.version)
    unlock c.slot
    retirePublished cfg c.slot c.version now
    return ({ report with
        retiredObjects := report.retiredObjects + 1
        retiredBytes := Word.satAdd 64 report.retiredBytes bytes },
      ⟨bytes, (accounted.map (·.2)).getD bytes⟩)

/-- The critical section of `evict_candidate` on an idle slot with the version. -/
def evictIdle (cfg : CatalogConfig) (generation : Generation) (c : GcCandidate) (now : CatalogTick)
    (report : CollectReport) : CatalogM A (CollectReport × RetiredBytes) := do
  if ← isPinned cfg c.version now then spare generation c report
  else if ← takeRecent c.version then spare .protectedQueue c report
  else if ← isLeased c.version now then spare .protectedQueue c report
  else evictUnread cfg c now report

def evictCandidate (cfg : CatalogConfig) (generation : Generation) (c : GcCandidate)
    (now : CatalogTick) (report : CollectReport) : CatalogM A (CollectReport × RetiredBytes) := do
  let report := { report with scannedCandidates := report.scannedCandidates + 1 }
  if ← reachCandidate c then
    if ← isPinned cfg c.version now then do
      modify (pushCandidate generation c)
      return (report, .zero)
    else do
      lock c.slot
      if ← isIdleWith c.slot c.version then evictIdle cfg generation c now report
      else do
        unlock c.slot
        if ← update (keepIf c fun w => w.committed c.slot = some c.version) then do
          modify (pushCandidate .protectedQueue c)
          return (report, .zero)
        else return (report, .zero)
  else return (report, .zero)

/-- What `evict` has done so far; `covered` when the reclaim target is met. -/
structure EvictPass where
  report : CollectReport
  remaining : ℕ
  covered : Bool

def reclaimTargetIsCovered : CatalogM A Bool := do
  let requested ← read (·.reclaim.requested)
  let retired ← read (·.lifecycle.retiredBytes.value)
  return requested ≤ retired

def evictRound (cfg : CatalogConfig) (generation : Generation) (now : CatalogTick)
    (pass : EvictPass) : CatalogM A (EvictPass ⊕ EvictPass) := do
  if ← reclaimTargetIsCovered then return .inr { pass with covered := true }
  else do
    match ← update (popCandidate generation) with
    | none => return .inr pass
    | some c => do
      let evicted ← evictCandidate cfg generation c now pass.report
      return .inl { pass with report := evicted.1, remaining := pass.remaining - 1 }

def evict (cfg : CatalogConfig) (now : CatalogTick) (budget : CollectBudget)
    (report : CollectReport) :
    CatalogM A CollectReport := do
  let young ← read (·.eviction.young.length)
  let protectedCount ← read (·.eviction.protectedQueue.length)
  let pass ← upTo (evictRound cfg .young now) (min young budget.maxCandidates)
    ⟨report, budget.maxCandidates, false⟩
  if pass.covered then return pass.report
  else do
    let pass ← upTo (evictRound cfg .protectedQueue now) (min protectedCount pass.remaining) pass
    return pass.report

inductive ScopedCandidate
  | stale
  | unmatched
  | matching (indices : List ℕ)

def ReclaimFilter.accepts (version : ObjectVersion A) : ReclaimFilter → Bool
  | .any => true
  | .ofClass replicaClass => ReplicaSet.directReplicaClass version.replicas = some replicaClass
  | .scope namespaceId replicaClass =>
    version.accounting.isSome && version.identity.namespaceId = namespaceId &&
      ReplicaSet.directReplicaClass version.replicas = some replicaClass

def classifyScopedCandidate (c : GcCandidate) (debts : List ReclaimTarget) :
    CatalogM A ScopedCandidate := do
  if ← reachCandidate c then do
    let version ← read fun w => w.versions c.version
    let indices := (debts.zipIdx.filter fun (debt, _) =>
      0 < debt.bytes && debt.filter.accepts version).map (·.2)
    return if indices.isEmpty then .unmatched else .matching indices
  else return .stale

/-- Retired bytes count against the debts that the candidate matched. -/
def settleDebts (indices : List ℕ) (retired : RetiredBytes) (debts : List ReclaimTarget) :
    List ReclaimTarget :=
  debts.mapIdx fun index debt =>
    if index ∈ indices then
      { debt with bytes := debt.bytes - match debt.filter with
        | .scope .. => retired.quota
        | .any | .ofClass _ => retired.physical }
    else debt

/-- What `evict_scoped` has done so far. -/
structure ScopedPass where
  report : CollectReport
  debts : List ReclaimTarget
  scanned : ℕ
  covered : Bool

def scopedCandidate (cfg : CatalogConfig) (generation : Generation) (now : CatalogTick)
    (c : GcCandidate) (pass : ScopedPass) : CatalogM A ScopedPass := do
  let skipped := { pass.report with scannedCandidates := pass.report.scannedCandidates + 1 }
  match ← classifyScopedCandidate c pass.debts with
  | .stale => return { pass with report := skipped }
  | .unmatched => do
    modify (pushCandidate generation c)
    return { pass with report := skipped }
  | .matching indices => do
    let evicted ← evictCandidate cfg generation c now pass.report
    return if 0 < evicted.2.physical then
      { pass with
        debts := settleDebts indices evicted.2 pass.debts
        report := { evicted.1 with
          scopedRetiredObjects := evicted.1.scopedRetiredObjects + 1
          scopedRetiredBytes := Word.satAdd 64 evicted.1.scopedRetiredBytes evicted.2.physical } }
      else { pass with report := evicted.1 }

def scopedRound (cfg : CatalogConfig) (generation : Generation) (now : CatalogTick)
    (pass : ScopedPass) : CatalogM A (ScopedPass ⊕ ScopedPass) :=
  if pass.debts.all (·.bytes = 0) then return .inr { pass with covered := true }
  else do
    match ← update (popCandidate generation) with
    | none => return .inr pass
    | some c => do
      let pass ← scopedCandidate cfg generation now c { pass with scanned := pass.scanned + 1 }
      return .inl pass

/-- `evict_scoped`: the report and the number of candidates scanned. -/
def evictScoped (cfg : CatalogConfig) (now : CatalogTick) (budget : CollectBudget)
    (targets : List ReclaimTarget) (report : CollectReport) :
    CatalogM A (CollectReport × ℕ) := do
  let debts := targets.filter fun target => 0 < target.bytes
  if targets.isEmpty ∨ budget.maxCandidates = 0 ∨ debts.isEmpty then return (report, 0)
  else do
    let young ← read (·.eviction.young.length)
    let protectedCount ← read (·.eviction.protectedQueue.length)
    let pass ← upTo (scopedRound cfg .young now) (min young budget.maxCandidates)
      ⟨report, debts, 0, false⟩
    if pass.covered then return (pass.report, pass.scanned)
    else do
      let pass ← upTo (scopedRound cfg .protectedQueue now)
        (min protectedCount (budget.maxCandidates - pass.scanned)) pass
      return (pass.report, pass.scanned)

/-! ### Reclamation -/

namespace World

def popRetired (w : World A) : Option RetiredObject × World A :=
  match w.retired with
  | [] => (none, w)
  | r :: rest => (some r, { w with retired := rest })

def pushRetired (r : RetiredObject) (w : World A) : World A :=
  { w with retired := w.retired ++ [r] }

end World

/-- `Arc::try_unwrap`: handles and local variables of running calls share a version. -/
def tryUnwrap (v : VersionRef) : CatalogM A Bool := do
  let unique ← pick true
  read fun w => unique && !w.custody.handles.contains v

/-- The version belongs to the step alone. -/
def reclaimVersion (retired : RetiredObject) (pass : Pass A) : CatalogM A (Pass A) := do
  let memory ← read (·.isMemory retired.version)
  releaseAccounting retired.version
  let replicas ← update (takeReplicas retired.version)
  (LifecycleCounters.onReclaim retired.reservedBytes memory).zoom lifecycleVar
  (ReclaimDebt.onReclaim retired.reservedBytes).zoom reclaimVar
  return { pass with
    batch := pass.batch ++ tag retired.version replicas
    report := { pass.report with
      reclaimedObjects := pass.report.reclaimedObjects + 1
      reclaimedBytes := Word.satAdd 64 pass.report.reclaimedBytes retired.reservedBytes
      reclaimedMemoryBytes :=
        if memory then Word.satAdd 64 pass.report.reclaimedMemoryBytes retired.reservedBytes
        else pass.report.reclaimedMemoryBytes } }

def reclaimRound (now : CatalogTick) (pass : Pass A) : CatalogM A (Pass A ⊕ Pass A) := do
  match ← update popRetired with
  | none => return .inr pass
  | some retired => do
    let pass := { pass with scanned := pass.scanned + 1 }
    if now < retired.reclaimAfter then do
      modify (pushRetired retired)
      return .inl pass
    else if ← tryUnwrap retired.version then do
      let pass ← reclaimVersion retired pass
      return .inl pass
    else do
      modify (pushRetired retired)
      return .inl pass

/-- `reclaim`: the report and the number of attempts. -/
def reclaim (now : CatalogTick) (maxReclaims : ℕ) (report : CollectReport) :
    CatalogM A (CollectReport × ℕ) := do
  let retired ← read (·.retired.length)
  let pass ← upTo (reclaimRound now) (min retired maxReclaims) ⟨report, [], 0, 0⟩
  releaseBatch now pass.batch
  return (pass.report, pass.scanned)

/-! ### Empty slots -/

namespace World

def popEmptySlot (w : World A) : Option EmptySlotCandidate × World A :=
  match w.emptySlots with
  | [] => (none, w)
  | c :: rest => (some c, { w with emptySlots := rest })

def pushEmptySlot (c : EmptySlotCandidate) (w : World A) : World A :=
  { w with emptySlots := w.emptySlots ++ [c] }

/-- `remove_if_sync` under the lock of the bucket. -/
def unindex (identity : ObjectIdentity) (s : SlotRef) (w : World A) : Bool × World A :=
  if w.lookupSlot identity = some s ∧ w.committed s = none ∧ w.active s = none then
    (true, { w with index := { w.index with entries := w.index.entries.erase identity } })
  else (false, w)

def uncountSlot (s : SlotRef) (w : World A) : World A :=
  { w.modifySlot s fun x => { x with counted := x.counted - 1 } with
    index := { w.index with slots := w.index.slots.fetchSub 1 } }

end World

/-- An empty slot candidate whose grace has passed. -/
def cleanSlot (c : EmptySlotCandidate) (report : CollectReport) : CatalogM A CollectReport := do
  if ← upgradeSlot c.slot then do
    lock c.slot
    if ← read fun w => (w.committed c.slot).isSome || (w.active c.slot).isSome then do
      unlock c.slot
      return report
    else if ← update (unindex c.identity c.slot) then do
      modify (uncountSlot c.slot)
      unlock c.slot
      return { report with removedEmptySlots := report.removedEmptySlots + 1 }
    else do
      unlock c.slot
      return report
  else return report

def cleanRound (now : CatalogTick) (report : CollectReport) :
    CatalogM A (CollectReport ⊕ CollectReport) := do
  match ← update popEmptySlot with
  | none => return .inr report
  | some c =>
    if now < c.deadline then do
      modify (pushEmptySlot c)
      return .inl report
    else do
      let report ← cleanSlot c report
      return .inl report

def cleanEmptySlots (now : CatalogTick) (budget : CollectBudget) (report : CollectReport) :
    CatalogM A CollectReport := do
  let candidates ← read (·.emptySlots.length)
  upTo (cleanRound now) (min candidates budget.maxEmptySlots) report

/-! ### The step -/

/-- Eviction, unless the liveness sweep is still under way. -/
def evictAll (cfg : CatalogConfig) (now : CatalogTick) (budget : CollectBudget)
    (targets : List ReclaimTarget) (report : CollectReport) : CatalogM A CollectReport := do
  if ← LivenessSweep.isIncomplete.zoom livenessVar then return report
  else do
    let evicted ← evictScoped cfg now budget targets report
    evict cfg now { budget with maxCandidates := budget.maxCandidates - evicted.2 } evicted.1

def firstReclaim (now : CatalogTick) (budget : CollectBudget) (reclaimFirst : Bool) :
    CatalogM A (CollectReport × ℕ) :=
  if reclaimFirst then reclaim now budget.maxReclaims {} else return ({}, 0)

def collectGated (cfg : CatalogConfig) (now : CatalogTick) (budget : CollectBudget)
    (targets : List ReclaimTarget) (reclaimFirst : Bool) (prepareWatermark : CatalogM A ℕ)
    (finishWatermark : CollectReport → CatalogM A Unit) : CatalogM A CollectReport := do
  let first ← firstReclaim now budget reclaimFirst
  let watermark ← prepareWatermark
  let targets := if watermark = 0 then targets else targets ++ [⟨.ofClass .memory, watermark⟩]
  beginIfRequested
  let report ← expireSoftPins now budget first.1
  let swept ← retireInvalidatedPublished cfg now budget report
  let report ← expirePending cfg now budget swept.1
  let report ← evictAll cfg now { budget with maxCandidates := budget.maxCandidates - swept.2 }
    targets report
  let reclaimed ← reclaim now (budget.maxReclaims - first.2) report
  let report ← cleanEmptySlots now budget reclaimed.1
  finishWatermark report
  return report

def collectStepInner (cfg : CatalogConfig) (now : CatalogTick) (budget : CollectBudget)
    (targets : List ReclaimTarget) (reclaimFirst : Bool) (prepareWatermark : CatalogM A ℕ)
    (finishWatermark : CollectReport → CatalogM A Unit) : CatalogM A CollectReport := do
  if ← update tryLockStep then do
    let report ←
      collectGated cfg now budget targets reclaimFirst prepareWatermark finishWatermark
    modify unlockStep
    return report
  else return { busy := true }

def collectStepWithTargets (cfg : CatalogConfig) (now : CatalogTick) (budget : CollectBudget)
    (targets : List ReclaimTarget) : CatalogM A CollectReport :=
  collectStepInner cfg now budget targets false (return 0) fun _ => return ()

def collectStepWithTargetsAndWatermark (cfg : CatalogConfig) (now : CatalogTick)
    (budget : CollectBudget) (targets : List ReclaimTarget) (prepareWatermark : CatalogM A ℕ)
    (finishWatermark : CollectReport → CatalogM A Unit) : CatalogM A CollectReport :=
  collectStepInner cfg now budget targets true prepareWatermark finishWatermark

end Cakemaster.Object
