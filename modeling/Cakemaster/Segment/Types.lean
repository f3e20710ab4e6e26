import Cakemaster.Machine.Word

/-!
# Segments: identities, specifications and errors

The values that a segment pool is called with and the errors that it returns.
-/

namespace Cakemaster.Segment

open Machine

/-- A pair of `u64` halves, the shape shared by every id of the source. -/
structure SegmentId where
  high : ℕ
  low : ℕ
deriving DecidableEq

structure ClientId where
  high : ℕ
  low : ℕ
deriving DecidableEq

def SegmentId.isNil (id : SegmentId) : Bool := id.high = 0 ∧ id.low = 0

def ClientId.isNil (id : ClientId) : Bool := id.high = 0 ∧ id.low = 0

/-- The derived lexicographic order of the source, by which candidates are sorted. -/
def SegmentId.le (a b : SegmentId) : Bool := a.high < b.high ∨ a.high = b.high ∧ a.low ≤ b.low

structure SegmentIdentity where
  id : SegmentId
  owner : ClientId
  name : String
  hostId : String
deriving DecidableEq

inductive TransportProtocol
  | tcp
  | rdma
  | cxl
  | nvmeOf
  | custom (protocol : String)
deriving DecidableEq

structure ParseTransportProtocolError where
deriving DecidableEq

namespace TransportProtocol

def asStr : TransportProtocol → String
  | tcp => "tcp"
  | rdma => "rdma"
  | cxl => "cxl"
  | nvmeOf => "nvmeof"
  | custom protocol => protocol

/-- The bytes a protocol name may hold. A character outside ASCII is encoded in
bytes outside this set, so characters stand for bytes here. -/
def isProtocolChar (c : Char) : Bool :=
  ('a' ≤ c ∧ c ≤ 'z') ∨ ('0' ≤ c ∧ c ≤ '9') ∨ c = '_' ∨ c = '-'

def fromStr (protocol : String) : Except ParseTransportProtocolError TransportProtocol :=
  if protocol.toList = [] ∨ !protocol.toList.all isProtocolChar then .error {}
  else
    .ok <|
      if protocol = "tcp" then tcp
      else if protocol = "rdma" then rdma
      else if protocol = "cxl" then cxl
      else if protocol = "nvmeof" then nvmeOf
      else custom protocol

end TransportProtocol

structure TransportEndpoint where
  protocol : TransportProtocol
  endpoint : String
deriving DecidableEq

structure MemoryRegion where
  base : ℕ
  size : ℕ
deriving DecidableEq

namespace MemoryRegion

def stop (r : MemoryRegion) : Option ℕ := Word.checkedAdd 64 r.base r.size

def addresses (r : MemoryRegion) : Set ℕ := Set.Ico r.base (r.base + r.size)

end MemoryRegion

inductive ReplicaClass
  | memory
deriving DecidableEq

structure SegmentSpec where
  identity : SegmentIdentity
  region : MemoryRegion
  transport : TransportEndpoint
deriving DecidableEq

def SegmentSpec.replicaClass (_ : SegmentSpec) : ReplicaClass := .memory

inductive SegmentState
  | accepting
  | quiesced
  | removed
deriving DecidableEq

def SegmentState.isAccepting (s : SegmentState) : Bool := s = .accepting

structure SegmentPoolConfig where
  maxAllocatorNodesPerSegment : ℕ
deriving DecidableEq

def minAllocatorNodesPerSegment : ℕ := 3

def maxAllocatorNodesPerSegmentExclusive : ℕ := Word.maxOf 32 - 1

def SegmentPoolConfig.default : SegmentPoolConfig := ⟨128 * 1024⟩

structure PoolConfigError where
  maxAllocatorNodesPerSegment : ℕ
deriving DecidableEq

inductive AttachError
  | nilSegmentId
  | nilOwnerId
  | emptyName
  | zeroBaseAddress
  | emptyTransportEndpoint
  | invalidTransportProtocol (protocol : String) (source : ParseTransportProtocolError)
  | incompatibleTransportProtocol (protocol : TransportProtocol)
  | zeroSize
  | addressOverflow
  | conflictingSegmentId (id : SegmentId)
  | overlappingAddressRange (existing : SegmentId)
deriving DecidableEq

inductive SegmentStateError
  | notFound (id : SegmentId)
  | ownerMismatch (segment : SegmentId) (expected actual : ClientId)
  | stillAccepting (id : SegmentId)
  | busy (segment : SegmentId) (activeAllocations : ℕ)
deriving DecidableEq

inductive ReserveError
  | zeroSize
  | foreignCandidate
  | notFound (id : SegmentId)
  | notAccepting (id : SegmentId)
  | outOfSpace (id : SegmentId)
  | addressOverflow (id : SegmentId)
deriving DecidableEq

def validateDirectRange (region : MemoryRegion) (transport : TransportEndpoint) :
    Except AttachError Unit :=
  if transport.endpoint = "" then .error .emptyTransportEndpoint
  else
    match TransportProtocol.fromStr transport.protocol.asStr with
    | .error source => .error (.invalidTransportProtocol transport.protocol.asStr source)
    | .ok _ =>
      if region.size = 0 then .error .zeroSize
      else
        match region.stop with
        | none => .error .addressOverflow
        | some _ => .ok ()

def validateSpec (spec : SegmentSpec) : Except AttachError Unit :=
  if spec.identity.id.isNil then .error .nilSegmentId
  else if spec.identity.owner.isNil then .error .nilOwnerId
  else if spec.identity.name = "" then .error .emptyName
  else if spec.transport.protocol.asStr = "cxl" ∨ spec.transport.protocol.asStr = "nvmeof" then
    .error (.incompatibleTransportProtocol spec.transport.protocol)
  else if spec.region.base = 0 then .error .zeroBaseAddress
  else validateDirectRange spec.region spec.transport

theorem validateDirectRange_ok (h : validateDirectRange region transport = .ok ()) :
    0 < region.size ∧ region.base + region.size < 2 ^ 64 := by
  unfold validateDirectRange at h
  split at h
  · simp at h
  split at h
  · simp at h
  split at h
  · simp at h
  next hsize =>
  split at h
  · simp at h
  next stop hstop => exact ⟨Nat.pos_of_ne_zero hsize, (Word.checkedAdd_eq_some.mp hstop).1⟩

theorem validateSpec_ok (h : validateSpec spec = .ok ()) :
    0 < spec.region.size ∧ spec.region.base + spec.region.size < 2 ^ 64 := by
  unfold validateSpec at h
  repeat' (split at h; · simp at h)
  exact validateDirectRange_ok h

end Cakemaster.Segment
