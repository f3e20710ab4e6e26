import Cakemaster.Object.Types
import Cakemaster.Segment.Placement

/-!
# The memory-watermark controller

Each method of the controller is one section under its mutex, so it is a function on
the controller's state. The ratios of the configuration are parts per million.
-/

namespace Cakemaster.Object

open Machine Segment Word

def watermarkScale : ℕ := 1000000

def maxAllocationRetries : ℕ := 3

/-- A validated policy: `0 < low < high < 1`, and bounded work on an allocation failure. -/
structure MemoryEvictionConfig where
  highWatermarkPpm : ℕ
  lowWatermarkPpm : ℕ
  allocationFailureBudget : CollectBudget
  allocationRetryLimit : ℕ
  low_pos : 0 < lowWatermarkPpm
  low_lt_high : lowWatermarkPpm < highWatermarkPpm
  high_lt_scale : highWatermarkPpm < watermarkScale
  candidates_pos : 0 < allocationFailureBudget.maxCandidates
  reclaims_pos : 0 < allocationFailureBudget.maxReclaims
  retries_le : allocationRetryLimit ≤ maxAllocationRetries

def scaleBytes (bytes ratioPpm : ℕ) : ℕ := bytes * ratioPpm / watermarkScale

namespace MemoryEvictionConfig

def default : MemoryEvictionConfig :=
  ⟨900000, 800000, ⟨64, 64, 0⟩, 1, by decide, by decide, by decide, by decide, by decide, by decide⟩

def highBytes (c : MemoryEvictionConfig) (capacityBytes : ℕ) : ℕ :=
  scaleBytes capacityBytes c.highWatermarkPpm

def lowBytes (c : MemoryEvictionConfig) (capacityBytes : ℕ) : ℕ :=
  scaleBytes capacityBytes c.lowWatermarkPpm

end MemoryEvictionConfig

structure ObjectCatalogStats where
  slots : ℕ
  claims : ℕ
  pendingObjects : ℕ
  publishedObjects : ℕ
  pendingBytes : ℕ
  liveBytes : ℕ
  retiredBytes : ℕ
  retiredMemoryBytes : ℕ
  reclaimDebt : ℕ
  pendingCandidates : ℕ
  softPinCandidates : ℕ
  livenessScanRemaining : ℕ
  youngCandidates : ℕ
  protectedCandidates : ℕ
  retiredCandidates : ℕ
  emptySlotCandidates : ℕ
deriving DecidableEq

structure MemoryEvictionStats where
  active : Bool := false
  capacityBytes : ℕ := 0
  usedBytes : ℕ := 0
  maximumUsedBytes : ℕ := 0
  maximumUsedRatioPpm : ℕ := 0
  availableBytes : ℕ := 0
  highWatermarkBytes : ℕ := 0
  lowWatermarkBytes : ℕ := 0
  pendingBytes : ℕ := 0
  liveBytes : ℕ := 0
  retiredBytes : ℕ := 0
  reclaimDebtBytes : ℕ := 0
  requestedReclaimDebtBytes : ℕ := 0
  allocationReclaimDebtBytes : ℕ := 0
  watermarkReclaimDebtBytes : ℕ := 0
  triggerEvents : ℕ := 0
  controllerSteps : ℕ := 0
  busySteps : ℕ := 0
  retiredObjects : ℕ := 0
  retiredBytesTotal : ℕ := 0
  reclaimedObjects : ℕ := 0
  reclaimedBytesTotal : ℕ := 0
  allocationFailures : ℕ := 0
  allocationRetries : ℕ := 0
  allocationRetrySuccesses : ℕ := 0
  wakeups : ℕ := 0
deriving DecidableEq

structure MemoryEvictionState where
  stats : MemoryEvictionStats := {}
  watermarkActive : Bool := false
  allocationReclaimBytes : ℕ := 0
  allocationGeneration : ℕ := 0
deriving DecidableEq

namespace MemoryEvictionState

def refreshDebtStats (m : MemoryEvictionState) (requestedReclaimBytes : ℕ)
    (watermarkReclaimBytes : Option ℕ) : MemoryEvictionState :=
  let watermarkDebt := watermarkReclaimBytes.getD m.stats.watermarkReclaimDebtBytes
  { m with
    stats := { m.stats with
      watermarkReclaimDebtBytes := watermarkDebt
      requestedReclaimDebtBytes := requestedReclaimBytes
      allocationReclaimDebtBytes := m.allocationReclaimBytes
      reclaimDebtBytes := max (max requestedReclaimBytes m.allocationReclaimBytes) watermarkDebt
      active := m.watermarkActive || m.allocationReclaimBytes ≠ 0 || requestedReclaimBytes ≠ 0 } }

def updateSample (m : MemoryEvictionState) (space : ReplicaClassSpaceStats)
    (catalog : ObjectCatalogStats) (highBytes lowBytes watermarkReclaimBytes : ℕ) :
    MemoryEvictionState :=
  let ratio := min (space.usedBytes * watermarkScale / space.capacityBytes) (maxOf 64)
  let maximumUsedRatioPpm :=
    if space.capacityBytes ≠ 0 then max m.stats.maximumUsedRatioPpm ratio
    else m.stats.maximumUsedRatioPpm
  let stats := { m.stats with
    capacityBytes := space.capacityBytes
    usedBytes := space.usedBytes
    maximumUsedBytes := max m.stats.maximumUsedBytes space.usedBytes
    maximumUsedRatioPpm
    availableBytes := space.availableBytes
    highWatermarkBytes := highBytes
    lowWatermarkBytes := lowBytes
    pendingBytes := catalog.pendingBytes
    liveBytes := catalog.liveBytes
    retiredBytes := catalog.retiredBytes }
  { m with stats }.refreshDebtStats catalog.reclaimDebt (some watermarkReclaimBytes)

/-- Samples physical usage and answers with the bytes still to be retired. -/
def prepareStep (config : MemoryEvictionConfig) (space : ReplicaClassSpaceStats)
    (catalog : ObjectCatalogStats) (m : MemoryEvictionState) : ℕ × MemoryEvictionState :=
  let highBytes := config.highBytes space.capacityBytes
  let lowBytes := config.lowBytes space.capacityBytes
  let m :=
    if space.capacityBytes = 0 ∨ m.watermarkActive ∧ space.usedBytes ≤ lowBytes then
      { m with watermarkActive := false }
    else if !m.watermarkActive ∧ highBytes < space.usedBytes then
      { m with
        watermarkActive := true
        stats := { m.stats with triggerEvents := satAdd 64 m.stats.triggerEvents 1 } }
    else m
  let watermarkReclaimBytes := if m.watermarkActive then space.usedBytes - lowBytes else 0
  let m := m.updateSample space catalog highBytes lowBytes watermarkReclaimBytes
  (max (watermarkReclaimBytes - catalog.retiredMemoryBytes) m.allocationReclaimBytes, m)

def finishStep (config : MemoryEvictionConfig) (space : ReplicaClassSpaceStats)
    (catalog : ObjectCatalogStats) (report : CollectReport) (m : MemoryEvictionState) :
    MemoryEvictionState :=
  let highBytes := config.highBytes space.capacityBytes
  let lowBytes := config.lowBytes space.capacityBytes
  let allocationReclaimBytes := m.allocationReclaimBytes - report.reclaimedMemoryBytes
  let watermarkActive :=
    if space.capacityBytes = 0 ∨ space.usedBytes ≤ lowBytes then false else m.watermarkActive
  let watermarkReclaimBytes := if watermarkActive then space.usedBytes - lowBytes else 0
  let stats := { m.stats with
    controllerSteps := satAdd 64 m.stats.controllerSteps 1
    retiredObjects := satAdd 64 m.stats.retiredObjects report.retiredObjects
    retiredBytesTotal := satAdd 64 m.stats.retiredBytesTotal report.retiredBytes
    reclaimedObjects := satAdd 64 m.stats.reclaimedObjects report.reclaimedObjects
    reclaimedBytesTotal := satAdd 64 m.stats.reclaimedBytesTotal report.reclaimedBytes }
  { m with stats, allocationReclaimBytes, watermarkActive }.updateSample space catalog highBytes
    lowBytes watermarkReclaimBytes

def recordBusyStep (m : MemoryEvictionState) : MemoryEvictionState :=
  { m with
    stats := { m.stats with
      controllerSteps := satAdd 64 m.stats.controllerSteps 1
      busySteps := satAdd 64 m.stats.busySteps 1 } }

/-- Registers allocation pressure and answers with its generation. -/
def requestAllocationReclaim (bytes : ℕ) (m : MemoryEvictionState) : ℕ × MemoryEvictionState :=
  let m := { m with
    allocationGeneration := wrapAdd 64 m.allocationGeneration 1
    allocationReclaimBytes := max m.allocationReclaimBytes bytes
    stats := { m.stats with
      allocationFailures := satAdd 64 m.stats.allocationFailures 1
      wakeups := satAdd 64 m.stats.wakeups 1 } }
  (m.allocationGeneration, m.refreshDebtStats m.stats.requestedReclaimDebtBytes none)

/-- Clears the pressure unless a newer failure has registered its own. -/
def clearAllocationReclaim (generation : ℕ) (m : MemoryEvictionState) : MemoryEvictionState :=
  if m.allocationGeneration ≠ generation then m
  else { m with allocationReclaimBytes := 0 }.refreshDebtStats m.stats.requestedReclaimDebtBytes none

def recordAllocationRetry (m : MemoryEvictionState) : MemoryEvictionState :=
  { m with
    stats := { m.stats with allocationRetries := satAdd 64 m.stats.allocationRetries 1 } }

def recordAllocationRetrySuccess (m : MemoryEvictionState) : MemoryEvictionState :=
  { m with
    stats := { m.stats with
      allocationRetrySuccesses := satAdd 64 m.stats.allocationRetrySuccesses 1 } }

end MemoryEvictionState

end Cakemaster.Object
