import Cakemaster.Object.Write

/-!
# Reading an object

A reader loads the committed pointer, refreshes the lease of the version and then
looks at the pointer again; no lock is taken while a version is committed.
-/

namespace Cakemaster.Object

open Machine Machine.Prog Segment

variable {A : UnitAllocator}

structure ObjectRead where
  object : VersionRef
  leaseExpiresAt : CatalogTick
deriving DecidableEq

/-- The slot had no committed version: why, unless there is one by now. -/
def explainMissing (s : SlotRef) : CatalogM A (Unit ⊕ Except LookupError ObjectRead) := do
  lock s
  if ← hasCommitted s then do
    unlock s
    return .inl ()
  else do
    let active ← read (·.active s)
    unlock s
    return .inr (.error (if active.isSome then .notReady else .notFound))

/-- The part of a round of `get` that has found a committed version. -/
def readVersion (cfg : CatalogConfig) (s : SlotRef) (v : VersionRef) (now : CatalogTick) :
    CatalogM A (Unit ⊕ Except LookupError ObjectRead) := do
  let leaseExpiresAt ← recordAccess cfg v now
  let live ← hasLive v
  let pointed ← committedPointsTo s v
  if pointed && live then do
    modify (World.addHandle v)
    return .inr (.ok ⟨v, leaseExpiresAt⟩)
  else do
    if ← committedPointsTo s v then return .inr (.error .notFound) else return .inl ()

def getRound (cfg : CatalogConfig) (s : SlotRef) (now : CatalogTick) :
    CatalogM A (Unit ⊕ Except LookupError ObjectRead) := do
  match ← read (·.committed s) with
  | none => explainMissing s
  | some v => readVersion cfg s v now

/-- `get`; a successful call owns a handle of the version. -/
def get (cfg : CatalogConfig) (identity : ObjectIdentity) (now : CatalogTick) :
    CatalogM A (Except LookupError ObjectRead) := do
  match ← read (·.lookupSlot identity) with
  | none => return .error .notFound
  | some s => iterate (fun () => getRound cfg s now) ()

namespace World

def removeHandle (v : VersionRef) (w : World A) : World A :=
  { w with custody := { w.custody with handles := w.custody.handles.erase v } }

end World

def dropHandle (v : VersionRef) : CatalogM A Unit := modify (World.removeHandle v)

end Cakemaster.Object
