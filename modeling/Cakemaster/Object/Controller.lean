import Cakemaster.Object.Eviction
import Mathlib.Data.List.Induction

/-!
# Runs of the watermark controller

The watermark is a latch with two thresholds, and the pressure of a failed allocation has
the generation of the last failure.
-/

namespace Cakemaster.Object.MemoryEvictionState

open Machine Segment List

/-- A section under the mutex of the controller. -/
inductive Call
  | prepareStep (space : ReplicaClassSpaceStats) (catalog : ObjectCatalogStats)
  | finishStep (space : ReplicaClassSpaceStats) (catalog : ObjectCatalogStats)
      (report : CollectReport)
  | recordBusyStep
  | requestAllocationReclaim (bytes : ℕ)
  | clearAllocationReclaim (generation : ℕ)
  | recordAllocationRetry
  | recordAllocationRetrySuccess

section

variable (config : MemoryEvictionConfig)

def perform (m : MemoryEvictionState) : Call → MemoryEvictionState
  | .prepareStep space catalog => (m.prepareStep config space catalog).2
  | .finishStep space catalog report => m.finishStep config space catalog report
  | .recordBusyStep => m.recordBusyStep
  | .requestAllocationReclaim bytes => (m.requestAllocationReclaim bytes).2
  | .clearAllocationReclaim generation => m.clearAllocationReclaim generation
  | .recordAllocationRetry => m.recordAllocationRetry
  | .recordAllocationRetrySuccess => m.recordAllocationRetrySuccess

/-- The controller after some calls. -/
def run (calls : List Call) : MemoryEvictionState := calls.foldl (perform config) {}

/-- A sample above the high watermark, at the beginning of a step. -/
def Call.Raises : Call → Prop
  | .prepareStep space _ => config.highBytes space.capacityBytes < space.usedBytes
  | _ => False

/-- A sample at or below the low watermark, or of no capacity. -/
def Call.Lowers : Call → Prop
  | .prepareStep space _ | .finishStep space _ _ =>
    space.capacityBytes = 0 ∨ space.usedBytes ≤ config.lowBytes space.capacityBytes
  | _ => False

/-- How often the watermark has become active. -/
def activations (calls : List Call) : ℕ :=
  (List.range calls.length).countP fun i =>
    !(run config (calls.take i)).watermarkActive && (run config (calls.take (i + 1))).watermarkActive

end

variable {config : MemoryEvictionConfig} {m : MemoryEvictionState}

@[simp] theorem run_snoc (calls : List Call) (call : Call) :
    run config (calls ++ [call]) = (run config calls).perform config call := by
  simp [run]

theorem lowBytes_le_highBytes (config : MemoryEvictionConfig) (capacity : ℕ) :
    config.lowBytes capacity ≤ config.highBytes capacity :=
  Nat.div_le_div_right (Nat.mul_le_mul_left capacity config.low_lt_high.le)

/-- What a call does to the latch, and to the count of its activations. -/
theorem latch_perform (call : Call) :
    ((m.perform config call).watermarkActive = true ↔
      ¬call.Lowers config ∧ (m.watermarkActive = true ∨ call.Raises config)) ∧
    (m.perform config call).stats.triggerEvents =
      if !m.watermarkActive && (m.perform config call).watermarkActive then Word.satAdd 64
        m.stats.triggerEvents 1
      else m.stats.triggerEvents := by
  cases call with
  | prepareStep space catalog =>
    -- A sample cannot be at or below the low watermark and above the high one.
    have hle := lowBytes_le_highBytes config space.capacityBytes
    simp only [perform, prepareStep, updateSample, refreshDebtStats, Call.Lowers, Call.Raises]
    grind
  | finishStep space catalog report =>
    simp only [perform, finishStep, updateSample, refreshDebtStats, Call.Lowers, Call.Raises]
    grind
  | clearAllocationReclaim generation =>
    simp only [perform, clearAllocationReclaim, refreshDebtStats, Call.Lowers, Call.Raises]
    grind
  | _ =>
    simp [perform, recordBusyStep, requestAllocationReclaim, recordAllocationRetry,
      recordAllocationRetrySuccess, refreshDebtStats, Call.Lowers, Call.Raises]

theorem activations_snoc (calls : List Call) (call : Call) : activations config (calls ++ [call]) =
    activations config calls + if !(run config calls).watermarkActive &&
      (run config (calls ++ [call])).watermarkActive then 1 else 0 := by
  rw [activations, length_append, length_singleton, range_succ, countP_append, activations]
  congr 1
  · refine countP_congr fun i hi => ?_
    have hlt := mem_range.mp hi
    rw [take_append_of_le_length hlt.le, take_append_of_le_length hlt]
  · rw [countP_singleton, take_left, take_of_length_le (by simp)]

/-- **The latch.** The watermark is active if and only if a step has begun above the high watermark
and no sample from that one on was at or below the low one. Every activation is counted. -/
theorem watermark_latched (config : MemoryEvictionConfig) (calls : List Call) :
    ((run config calls).watermarkActive = true ↔
      ∃ before call after, calls = before ++ call :: after ∧
        call.Raises config ∧ ∀ c ∈ call :: after, ¬c.Lowers config) ∧
    (run config calls).stats.triggerEvents = min (activations config calls) (Word.maxOf 64) := by
  induction calls using reverseRecOn with
  | nil => exact ⟨by simp [run], rfl⟩
  | append_singleton calls call ih =>
    obtain ⟨hactv, hevents⟩ := ih
    constructor
    · rw [run_snoc, (latch_perform call).1, hactv]
      constructor
      · rintro ⟨hkp, ⟨before, raising, after, rfl, hraises, haft⟩ | hraises⟩
        · refine ⟨before, raising, after ++ [call], by simp, hraises, ?_⟩
          rw [← cons_append]
          exact forall_mem_append.mpr ⟨haft, by simpa using hkp⟩
        · exact ⟨calls, call, [], rfl, hraises, by simpa using hkp⟩
      · rintro ⟨before, raising, after, heq, hraises, haft⟩
        rcases eq_nil_or_concat after with rfl | ⟨after, _, rfl⟩
        · obtain ⟨rfl, hlast⟩ := append_inj' heq rfl
          cases hlast
          exact ⟨haft _ mem_cons_self, .inr hraises⟩
        · rw [concat_eq_append, ← cons_append, ← append_assoc] at heq
          obtain ⟨rfl, hlast⟩ := append_inj' heq rfl
          cases hlast
          rw [concat_eq_append, ← cons_append, forall_mem_append] at haft
          exact ⟨haft.2 _ (mem_singleton_self call), .inl ⟨before, raising, after, rfl, hraises, haft.1⟩⟩
    · rw [run_snoc, (latch_perform call).2, activations_snoc, run_snoc, hevents]
      split
      · simp only [Word.satAdd]
        omega
      · rfl

/-! ### Failed allocations -/

def Call.isFailure : Call → Bool
  | .requestAllocationReclaim _ => true
  | _ => false

/-- The memory that a step has given back. -/
def Call.reclaimed : Call → ℕ
  | .finishStep _ _ report => report.reclaimedMemoryBytes
  | _ => 0

theorem prepareStep_allocation (space : ReplicaClassSpaceStats) (catalog : ObjectCatalogStats) :
    (m.prepareStep config space catalog).2.allocationReclaimBytes = m.allocationReclaimBytes ∧
      (m.prepareStep config space catalog).2.allocationGeneration = m.allocationGeneration := by
  simp only [prepareStep, updateSample, refreshDebtStats]
  grind

theorem allocationGeneration_run (config : MemoryEvictionConfig) (calls : List Call) :
    (run config calls).allocationGeneration = calls.countP Call.isFailure % 2 ^ 64 := by
  induction calls using reverseRecOn with
  | nil => rfl
  | append_singleton calls call ih =>
    rw [run_snoc, countP_append, countP_singleton]
    cases call with
    | prepareStep space catalog => exact (prepareStep_allocation space catalog).2.trans ih
    | clearAllocationReclaim generation =>
      simp only [perform, clearAllocationReclaim, refreshDebtStats]
      split <;> exact ih
    | requestAllocationReclaim bytes =>
      rw [perform, requestAllocationReclaim]
      simp only [refreshDebtStats, Word.wrapAdd, ih, Call.isFailure, if_true]
      exact Nat.mod_add_mod _ _ _
    | _ => exact ih

end Cakemaster.Object.MemoryEvictionState
