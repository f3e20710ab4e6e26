import Cakemaster.Object.Types
import Cakemaster.Tenant.Quota
import Mathlib.Data.List.AList

/-!
# Tenants: identities and the state of the registry

A tenant entry is shared by reference in the source; here the registry owns a list
position for each entry ever made.
-/

namespace Cakemaster.Tenant

open Machine Object

/-- A tenant id is not empty. -/
structure TenantId where
  value : String
  nonempty : value ≠ ""
deriving DecidableEq

abbrev TenantRef := ℕ

structure TenantEntry where
  id : TenantId
  namespaceId : NamespaceId
  version : ℕ
  memory : QuotaAccount
deriving DecidableEq

/-- The registry. `update` is its mutex, `reclaimState` the hint with its revision. -/
structure TenantRegistry where
  managerId : ℕ
  single : Bool
  directory : AList fun _ : TenantId => TenantRef
  entries : TenantRef → TenantEntry
  entryCount : ℕ
  update : Bool
  nextNamespace : ℕ
  capacityGeneration : ℕ
  reclaimState : ℕ

end Cakemaster.Tenant
