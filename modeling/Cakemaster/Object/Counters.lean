import Cakemaster.Machine.Atomic

/-!
# The catalog's counters

Each update of a counter is one atomic action; `fetch_update` repeats its swap until
it succeeds, so it is one action as well.
-/

namespace Cakemaster.Object

open Machine Machine.Prog

/-- A 64-bit counter, with a record that no program reads: whether a subtraction from
it ever went below zero. -/
structure Counter where
  value : ℕ
  underflowed : Bool
deriving DecidableEq

namespace Counter

def zero : Counter := ⟨0, false⟩

def add (n : ℕ) (c : Counter) : Counter := { c with value := Word.wrapAdd 64 c.value n }

/-- `fetch_sub`, which wraps below zero. -/
def fetchSub (n : ℕ) (c : Counter) : Counter :=
  if n ≤ c.value then { c with value := c.value - n }
  else { value := c.value + 2 ^ 64 - n, underflowed := true }

def saturatingSub (n : ℕ) (c : Counter) : Counter :=
  if n ≤ c.value then { c with value := c.value - n } else { value := 0, underflowed := true }

end Counter

structure LifecycleCounters where
  claims : Counter
  pendingObjects : Counter
  publishedObjects : Counter
  pendingBytes : Counter
  liveBytes : Counter
  retiredBytes : Counter
  retiredMemoryBytes : Counter
deriving DecidableEq

namespace LifecycleCounters

def new : LifecycleCounters := ⟨.zero, .zero, .zero, .zero, .zero, .zero, .zero⟩

def onClaim : Prog LifecycleCounters Unit := modify fun c => { c with claims := c.claims.add 1 }

def onClaimDropped : Prog LifecycleCounters Unit :=
  modify fun c => { c with claims := c.claims.fetchSub 1 }

def onStage (reservedBytes : ℕ) : Prog LifecycleCounters Unit := do
  modify fun c => { c with claims := c.claims.fetchSub 1 }
  modify fun c => { c with pendingObjects := c.pendingObjects.add 1 }
  modify fun c => { c with pendingBytes := c.pendingBytes.add reservedBytes }

def onCommit (committedBytes : ℕ) (replacedBytes : Option ℕ) (replacedMemoryBytes : ℕ) :
    Prog LifecycleCounters Unit := do
  modify fun c => { c with pendingObjects := c.pendingObjects.fetchSub 1 }
  modify fun c => { c with pendingBytes := c.pendingBytes.saturatingSub committedBytes }
  modify fun c => { c with liveBytes := c.liveBytes.add committedBytes }
  match replacedBytes with
  | some replacedBytes => do
    modify fun c => { c with liveBytes := c.liveBytes.saturatingSub replacedBytes }
    modify fun c => { c with retiredBytes := c.retiredBytes.add replacedBytes }
    modify fun c => { c with retiredMemoryBytes := c.retiredMemoryBytes.add replacedMemoryBytes }
  | none => modify fun c => { c with publishedObjects := c.publishedObjects.add 1 }

/-- The two additions shared by `on_abort_pending` and `on_retire_published`. -/
def addRetired (reservedBytes : ℕ) (memory : Bool) : Prog LifecycleCounters Unit := do
  modify fun c => { c with retiredBytes := c.retiredBytes.add reservedBytes }
  guarded memory
    (modify fun c => { c with retiredMemoryBytes := c.retiredMemoryBytes.add reservedBytes })

def onAbortPending (reservedBytes : ℕ) (memory : Bool) : Prog LifecycleCounters Unit := do
  modify fun c => { c with pendingObjects := c.pendingObjects.fetchSub 1 }
  modify fun c => { c with pendingBytes := c.pendingBytes.saturatingSub reservedBytes }
  addRetired reservedBytes memory

def onRetirePublished (reservedBytes : ℕ) (memory : Bool) : Prog LifecycleCounters Unit := do
  modify fun c => { c with publishedObjects := c.publishedObjects.fetchSub 1 }
  modify fun c => { c with liveBytes := c.liveBytes.saturatingSub reservedBytes }
  addRetired reservedBytes memory

def onPrunePublished (reservedBytes : ℕ) : Prog LifecycleCounters Unit :=
  modify fun c => { c with liveBytes := c.liveBytes.saturatingSub reservedBytes }

def onReclaim (reservedBytes : ℕ) (memory : Bool) : Prog LifecycleCounters Unit := do
  modify fun c => { c with retiredBytes := c.retiredBytes.saturatingSub reservedBytes }
  guarded memory
    (modify fun c => { c with retiredMemoryBytes := c.retiredMemoryBytes.saturatingSub reservedBytes })

end LifecycleCounters

/-- Explicit global reclaim debt. It is meant to saturate at zero. -/
structure ReclaimDebt where
  requested : ℕ
deriving DecidableEq

namespace ReclaimDebt

def onReclaim (bytes : ℕ) : Prog ReclaimDebt Unit := modify fun d => ⟨d.requested - bytes⟩

end ReclaimDebt

inductive Generation
  | young
  | protectedQueue
deriving DecidableEq

/-- Progress of a bounded liveness sweep across both eviction queues. -/
structure LivenessSweep where
  requested : Bool
  youngRemaining : ℕ
  protectedRemaining : ℕ
deriving DecidableEq

namespace LivenessSweep

def request : Prog LivenessSweep Unit := modify fun l => { l with requested := true }

def remainingOf (l : LivenessSweep) : Generation → ℕ
  | .young => l.youngRemaining
  | .protectedQueue => l.protectedRemaining

def modifyRemaining (generation : Generation) (f : ℕ → ℕ) (l : LivenessSweep) : LivenessSweep :=
  match generation with
  | .young => { l with youngRemaining := f l.youngRemaining }
  | .protectedQueue => { l with protectedRemaining := f l.protectedRemaining }

/-- `fetch_sub(1)` on a counter of candidates. -/
def countDown (generation : Generation) : Prog LivenessSweep Unit :=
  modify (modifyRemaining generation fun n => if n = 0 then Word.maxOf 64 else n - 1)

def stop (generation : Generation) : Prog LivenessSweep Unit :=
  modify (modifyRemaining generation fun _ => 0)

/-- `is_incomplete`: the second counter is read only when the first is zero. -/
def isIncomplete : Prog LivenessSweep Bool := do
  let young ← read (·.youngRemaining)
  if young ≠ 0 then return true
  else do
    let protectedRemaining ← read (·.protectedRemaining)
    return protectedRemaining ≠ 0

end LivenessSweep

end Cakemaster.Object
