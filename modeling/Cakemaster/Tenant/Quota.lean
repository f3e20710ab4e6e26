import Cakemaster.Machine.Atomic

/-!
# Quota accounts

The atomic counters of one tenant and resource class, and the programs on them.
An admission reads the policy epoch, raises the demand under the effective quota
it saw, and keeps the raise only if the epoch has not moved; a policy change
makes the epoch odd while it stores the new quota.
-/

namespace Cakemaster.Tenant

open Machine Machine.Prog

inductive TenantResourceClass
  | memory
deriving DecidableEq

/-- The atomic variables of an account. The last three fields are history that no
program reads: how many policy updates have begun, whether one is between its two
epoch increments, and whether the assertion against underflow has failed. -/
structure QuotaAccount where
  policyEpoch : ℕ
  requested : ℕ
  effective : ℕ
  demand : ℕ
  used : ℕ
  retiring : ℕ
  updatesStarted : ℕ
  updating : Bool
  underflowed : Bool
deriving DecidableEq

/-- The payload of `TenantQuotaExceeded`. -/
structure QuotaExceeded where
  resourceClass : TenantResourceClass
  requestedBytes : ℕ
  demandBytes : ℕ
  effectiveBytes : ℕ
deriving DecidableEq

namespace QuotaAccount

def new (requested : ℕ) : QuotaAccount where
  policyEpoch := 0
  requested := requested
  effective := 0
  demand := 0
  used := 0
  retiring := 0
  updatesStarted := 0
  updating := false
  underflowed := false

def policyEpochVar : Lens QuotaAccount ℕ :=
  ⟨policyEpoch, fun v a => { a with policyEpoch := v }, fun _ _ => rfl, fun _ => rfl, fun _ _ _ => rfl⟩

def effectiveVar : Lens QuotaAccount ℕ :=
  ⟨effective, fun v a => { a with effective := v }, fun _ _ => rfl, fun _ => rfl, fun _ _ _ => rfl⟩

def demandVar : Lens QuotaAccount ℕ :=
  ⟨demand, fun v a => { a with demand := v }, fun _ _ => rfl, fun _ => rfl, fun _ _ _ => rfl⟩

def usedVar : Lens QuotaAccount ℕ :=
  ⟨used, fun v a => { a with used := v }, fun _ _ => rfl, fun _ => rfl, fun _ _ _ => rfl⟩

def retiringVar : Lens QuotaAccount ℕ :=
  ⟨retiring, fun v a => { a with retiring := v }, fun _ _ => rfl, fun _ => rfl, fun _ _ _ => rfl⟩

/-- The first epoch increment of a policy update. -/
def beginUpdate (a : QuotaAccount) : QuotaAccount :=
  { a with
    policyEpoch := Word.wrapAdd 64 a.policyEpoch 1
    updatesStarted := a.updatesStarted + 1
    updating := true }

/-- The second epoch increment of a policy update. -/
def endUpdate (a : QuotaAccount) : QuotaAccount :=
  { a with policyEpoch := Word.wrapAdd 64 a.policyEpoch 1, updating := false }

def setEffective (effective : ℕ) : Prog QuotaAccount Unit := do
  modify beginUpdate
  store effectiveVar effective
  modify endUpdate

/-- One swap of a `fetch_update` that subtracts, from the value it has seen. -/
def subtractSwap (value : Lens QuotaAccount ℕ) (amount current : ℕ) :
    Prog QuotaAccount (ℕ ⊕ Unit) := do
  match ← compareExchangeWeak value current (current - amount) with
  | .ok _ => return .inr ()
  | .error observed => return .inl observed

/-- `atomic_saturating_sub`: a `fetch_update` whose closure asserts that the value
it has seen covers the amount. -/
def atomicSaturatingSub (value : Lens QuotaAccount ℕ) (amount : ℕ) : Prog QuotaAccount Unit := do
  let current ← load value
  iterate (fun current => do
    guarded (current < amount) (modify fun a => { a with underflowed := true })
    subtractSwap value amount current) current

/-- What one attempt of `reserve_demand` leads to: the call returns, or the epoch
has moved and the attempt was undone. -/
abbrev Attempt := Option (Except QuotaExceeded Unit)

/-- The demand was raised under `epoch`: keep the raise if the epoch is the same. -/
def confirmEpoch (bytes epoch : ℕ) : Prog QuotaAccount Attempt := do
  let current ← load policyEpochVar
  if current = epoch then return some (.ok ())
  else do
    atomicSaturatingSub demandVar bytes
    return none

/-- One round of the inner loop of `reserve_demand`, with the demand it has seen. -/
def raiseRound (resourceClass : TenantResourceClass) (bytes epoch effective demand : ℕ) :
    Prog QuotaAccount (ℕ ⊕ Attempt) :=
  match Word.checkedAdd 64 demand bytes with
  | none => return .inr (some (.error ⟨resourceClass, bytes, demand, effective⟩))
  | some next =>
    if effective < next then return .inr (some (.error ⟨resourceClass, bytes, demand, effective⟩))
    else do
      match ← compareExchangeWeak demandVar demand next with
      | .ok _ => do
        let attempt ← confirmEpoch bytes epoch
        return .inr attempt
      | .error observed => return .inl observed

/-- One round of the outer loop of `reserve_demand`. -/
def reserveRound (resourceClass : TenantResourceClass) (bytes : ℕ) :
    Prog QuotaAccount (Unit ⊕ Except QuotaExceeded Unit) := do
  let epoch ← load policyEpochVar
  if epoch % 2 ≠ 0 then return .inl ()
  else do
    let effective ← load effectiveVar
    let demand ← load demandVar
    match ← iterate (raiseRound resourceClass bytes epoch effective) demand with
    | some result => return .inr result
    | none => return .inl ()

def reserveDemand (resourceClass : TenantResourceClass) (bytes : ℕ) :
    Prog QuotaAccount (Except QuotaExceeded Unit) :=
  iterate (fun () => reserveRound resourceClass bytes) ()

def releaseReserved (bytes : ℕ) : Prog QuotaAccount Unit := atomicSaturatingSub demandVar bytes

end QuotaAccount

end Cakemaster.Tenant
