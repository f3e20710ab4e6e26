import Cakemaster.Rpc.Protocol
import Cakemaster.Rpc.RoundTrip

/-!
# Outcomes of calls

The frame that the server makes of the result of a handler, and what the client reads from it.
-/

namespace Cakemaster.Rpc

open Wire

inductive RpcErrorCode
  | ok | ioError | notConnected | timedOut | invalidRpcArguments | addressInUse | badAddress
  | openError | listenError | operationCanceled | rpcThrowException | functionNotRegistered
  | protocolError | unknownProtocolVersion | messageTooLarge | serverHasRun | invalidRpcResult
  | serialNumberConflict

/-- The discriminants count from 0. -/
def RpcErrorCode.code (c : RpcErrorCode) : UInt16 := .ofNat c.ctorIdx

def RpcErrorCode.message : RpcErrorCode → String
  | ok => "ok"
  | ioError => "io error"
  | notConnected => "not connected"
  | timedOut => "time out"
  | invalidRpcArguments => "invalid rpc arg"
  | addressInUse => "address in use"
  | badAddress => "bad address"
  | openError => "open error"
  | listenError => "listen error"
  | operationCanceled => "operation canceled"
  | rpcThrowException => "rpc throw exception"
  | functionNotRegistered => "function not registered"
  | protocolError => "protocol error"
  | unknownProtocolVersion => "unknown protocol version"
  | messageTooLarge => "message too large"
  | serverHasRun => "server has run"
  | invalidRpcResult => "invalid rpc result"
  | serialNumberConflict => "serial number conflict"

structure RpcFailure where
  code : UInt16
  message : String

def RpcFailure.new (code : UInt16) (message : String) : RpcFailure :=
  ⟨if code = 0 then RpcErrorCode.rpcThrowException.code else code, message⟩

theorem RpcFailure.new_code_ne_zero (code : UInt16) (message : String) :
    (new code message).code ≠ 0 := by
  rw [new]
  split
  · exact (by decide : RpcErrorCode.rpcThrowException.code ≠ 0)
  · assumption

def RpcFailure.standard (code : RpcErrorCode) : RpcFailure := .new code.code code.message

/-- The type `(u16, String)`. -/
def extendedTy : Ty := .product .tuple [.scalar .u16, .string]

/-- The errors of the client that come from a response. -/
inductive ResponseError
  | codec (error : StructPackError)
  | remote (code : UInt16) (message : String)

section

variable (md5Hash32 : Bytes → UInt32) (display : StructPackError → String) (order : KeyOrder)

/-- A call of `expect` that fails is a panic, `none`. -/
def failureFrame (sequence : UInt32) (failure : RpcFailure) : Option ResponseFrame := do
  let (wireCode, body) ←
    if 255 ≤ failure.code then
      let body ← (serialize md5Hash32 extendedTy (failure.code.toBitVec, failure.message, ())).toOption
      pure (255, body)
    else
      let body ← (serialize md5Hash32 .string failure.message).toOption
      pure (failure.code.toUInt8, body)
  (ResponseFrame.new sequence wireCode body []).toOption

def successFrame (sequence : UInt32) (t : Ty) (value : t.Value) (attachment : Bytes)
    (responseTypeHash : UInt32) : Option ResponseFrame :=
  match serializeWithTypeHash t value responseTypeHash with
  | .ok body =>
    match ResponseFrame.new sequence 0 body attachment with
    | .ok frame => some frame
    | .error _ => failureFrame md5Hash32 sequence (.standard .messageTooLarge)
  | .error error =>
    failureFrame md5Hash32 sequence
      (.new RpcErrorCode.invalidRpcResult.code ("failed to serialize RPC result: " ++ display error))

def decodeResponse (t : Ty) (frame : ResponseFrame) (responseTypeHash : UInt32) :
    Except ResponseError (t.Value × Bytes) := do
  if frame.header.errorCode = 0 then
    let value ← (deserializeWithTypeHashAndLimit order t responseTypeHash defaultContainerLimit
      frame.body).mapError .codec
    return (value, frame.attachment)
  else if frame.header.errorCode = 255 then
    let (code, message, ()) ← (deserialize md5Hash32 order extendedTy frame.body).mapError .codec
    throw (.remote ⟨code⟩ message)
  else
    let message ← (deserialize md5Hash32 order .string frame.body).mapError .codec
    throw (.remote frame.header.errorCode.toUInt16 message)

end

variable {md5Hash32 : Bytes → UInt32} {order : KeyOrder} {failure : RpcFailure}

theorem new_frame (sequence : UInt32) (code : UInt8) (hbody : body.length < 2 ^ 32)
    (hattc : attachment.length < 2 ^ 32) :
    ∃ frame, ResponseFrame.new sequence code body attachment = .ok frame ∧
      frame.header.errorCode = code ∧ frame.body = body ∧ frame.attachment = attachment := by
  rw [ResponseFrame.new, payloadLengths, u32Length, u32Length, if_pos hbody, if_pos hattc]
  exact ⟨_, rfl, rfl, rfl, rfl⟩

theorem length_header (hash : UInt32) (w : LengthWidth) : (header hash w).length ≤ 5 := by
  rw [header, List.length_append, length_littleEndian]
  split <;> simp

theorem length_string (h : encodePayload w .string s = .ok payload) :
    payload.length ≤ 8 + (utf8Bytes s).length := by
  rw [encodePayload, writeLen] at h
  split at h
  · cases h
    rw [List.length_append, length_littleEndian]
    refine Nat.add_le_add_right ?_ _
    cases w <;> decide
  · cases h

theorem length_extended (h : encodePayload w extendedTy (code, s, ()) = .ok payload) :
    payload.length ≤ 10 + (utf8Bytes s).length := by
  cases hstring : encodePayload w .string s with
  | error err =>
    simp only [extendedTy, encodePayload, encodeFields] at h hstring
    rw [hstring] at h
    cases h
  | ok text =>
    have := length_string hstring
    simp only [extendedTy, encodePayload, encodeFields] at h hstring
    rw [hstring] at h
    cases h
    simp [Scalar.width]
    omega

/-- The body of an error is small enough for a frame. -/
theorem exists_error (sequence : UInt32) (code : UInt8) (ht : t.Supported) (hv : Ordered order t v)
    (hlim : Within defaultContainerLimit t v) (hn : n ≤ defaultContainerLimit)
    (hlth : ∀ w payload, encodePayload w t v = .ok payload → payload.length ≤ 10 + n) :
    ∃ body frame, serialize md5Hash32 t v = .ok body ∧
    ResponseFrame.new sequence code body [] = .ok frame ∧
      frame.header.errorCode = code ∧ deserialize md5Hash32 order t frame.body = .ok v := by
  obtain ⟨w, payload, henc, hser, hrds⟩ := exists_payload ht hv (by decide) hlim
  have hpay := hlth w payload henc
  have hhdr := length_header (typeHash md5Hash32 t) w
  have hbody : (header (typeHash md5Hash32 t) w ++ payload).length < 2 ^ 32 := by
    rw [List.length_append]
    unfold defaultContainerLimit at hn
    omega
  obtain ⟨frame, hnew, herro, hfrm, -⟩ :=
    new_frame sequence code hbody (List.length_nil.trans_lt (Nat.two_pow_pos 32))
  exact ⟨_, frame, hser _, hnew, herro, hfrm ▸ deserialize_eq _ hrds⟩

theorem failure_round_trip (sequence : UInt32) (t : Ty) (hash : UInt32) (hcode : failure.code ≠ 0)
    (hmsg : (utf8Bytes failure.message).length ≤ defaultContainerLimit) :
    ∃ frame, failureFrame md5Hash32 sequence failure = some frame ∧
      decodeResponse md5Hash32 order t frame hash = .error (.remote failure.code failure.message) := by
  by_cases hextended : 255 ≤ failure.code
  · have hordered : Ordered order extendedTy (failure.code.toBitVec, failure.message, ()) :=
      ⟨trivial, trivial, trivial⟩
    obtain ⟨body, frame, hser, hnew, herro, hbody⟩ := exists_error (t := extendedTy) sequence 255
      ⟨trivial, trivial, trivial⟩ hordered ⟨trivial, hmsg, trivial⟩ hmsg fun _ _ h =>
      length_extended h
    refine ⟨frame, ?_, ?_⟩
    · rw [failureFrame, if_pos hextended, hser]
      exact congrArg Except.toOption hnew
    · rw [decodeResponse, herro, hbody]
      rfl
  have hlt : failure.code.toNat < 255 := Nat.lt_of_not_le fun h =>
    hextended (UInt16.le_iff_toNat_le.mpr h)
  have hwire : failure.code.toUInt8.toUInt16 = failure.code := by
    apply UInt16.toNat_inj.mp
    rw [UInt8.toNat_toUInt16, UInt16.toNat_toUInt8, Nat.mod_eq_of_lt (hlt.trans (by decide))]
  have hordered : Ordered order .string failure.message := trivial
  obtain ⟨body, frame, hser, hnew, herro, hbody⟩ := exists_error (t := .string) sequence
    failure.code.toUInt8 trivial hordered hmsg hmsg fun _ _ h => (length_string h).trans (by omega)
  refine ⟨frame, ?_, ?_⟩
  · rw [failureFrame, if_neg hextended, hser]
    exact congrArg Except.toOption hnew
  · have hzero : failure.code.toUInt8 ≠ 0 := fun h => hcode (by rw [← hwire, h]; rfl)
    have hlast : failure.code.toUInt8 ≠ 255 := fun h => hlt.ne (by rw [← hwire, h]; rfl)
    rw [decodeResponse, herro, if_neg hzero, if_neg hlast, hbody, hwire]
    rfl

/-- **Outcomes.** The client gets the value and the attachment of a handler, or its failure. The
hash of the response type is any hash with its flag cleared. -/
theorem outcome_round_trip (md5Hash32 : Bytes → UInt32) (display : StructPackError → String)
    (order : KeyOrder) (t : Ty) (ht : t.Supported) (hash sequence : UInt32) :
    (∀ value attachment, Ordered order t value → Within defaultContainerLimit t value →
      (∀ body, serializeWithTypeHash t value (hash &&& 0xfffffffe) = .ok body →
        body.length < 2 ^ 32) → attachment.length < 2 ^ 32 →
      ∃ frame, successFrame md5Hash32 display sequence t value attachment (hash &&& 0xfffffffe) =
          some frame ∧
        decodeResponse md5Hash32 order t frame (hash &&& 0xfffffffe) = .ok (value, attachment)) ∧
    ∀ code message, (utf8Bytes message).length ≤ defaultContainerLimit →
      ∃ frame, failureFrame md5Hash32 sequence (.new code message) = some frame ∧
        decodeResponse md5Hash32 order t frame (hash &&& 0xfffffffe) =
          .error (.remote (if code = 0 then RpcErrorCode.rpcThrowException.code else code) message) := by
  constructor
  · intro value attachment hordered hwithin hbody hattachment
    obtain ⟨_, _, -, hserialize, hreads⟩ := exists_payload ht hordered (by decide) hwithin
    obtain ⟨frame, hnew, herror, hframe, hframe'⟩ :=
      new_frame sequence 0 (hbody _ (hserialize _)) hattachment
    refine ⟨frame, ?_, ?_⟩
    · rw [successFrame, hserialize]
      dsimp only
      rw [hnew]
    · rw [decodeResponse, herror, hframe, hframe', deserialize_eq _ hreads]
      rfl
  · intro code message hmessage
    exact failure_round_trip sequence t _ (RpcFailure.new_code_ne_zero code message) hmessage

theorem outcome_round_trip_both :
    (∃ frame, successFrame sampleDigest (fun _ => "") 7 .bool true [1] 12 = some frame ∧
      decodeResponse sampleDigest boolOrder .bool frame 12 = .ok (true, [1])) ∧
    ∃ frame, failureFrame sampleDigest 7 (.new 404 "gone") = some frame ∧
      decodeResponse sampleDigest boolOrder .bool frame 12 = .error (.remote 404 "gone") := by
  have houtcome := outcome_round_trip sampleDigest (fun _ => "") boolOrder .bool trivial 12 7
  exact ⟨houtcome.1 true [1] trivial trivial (fun _ h => by cases h; decide) (by decide),
    houtcome.2 404 "gone" (by decide)⟩

end Cakemaster.Rpc
