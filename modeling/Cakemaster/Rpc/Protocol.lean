import Cakemaster.Machine.Word
import Cakemaster.Wire.Bytes

/-!
# Frames of the RPC protocol

Headers, frames and the streaming codecs. A codec works on a buffer of received bytes;
every operation on it returns the buffer that it leaves behind. Requests and responses
differ in their headers, so that a codec is one program over a format of headers.
-/

namespace Cakemaster.Rpc

open Machine Wire

def magicNumber : UInt8 := 21

def version : UInt8 := 0

def structPackSerialization : UInt8 := 0

def requestHeaderLen : ℕ := 20

def responseHeaderLen : ℕ := 16

structure FrameLimits where
  maxBodyLen : ℕ
  maxAttachmentLen : ℕ
deriving DecidableEq

def FrameLimits.default : FrameLimits := ⟨64 * 1024 * 1024, 256 * 1024 * 1024⟩

inductive ProtocolError
  | invalidHeaderLength (expected actual : ℕ)
  | invalidMagic (magic : UInt8)
  | unsupportedVersion (version : UInt8)
  | unsupportedSerialization (serializeType : UInt8)
  | bodyTooLarge (length : UInt32) (limit : ℕ)
  | attachmentTooLarge (length : UInt32) (limit : ℕ)
  | lengthMismatch (field : String) (declared : UInt32) (actual : ℕ)
  | lengthOverflow
deriving DecidableEq

inductive FrameError
  -- the connection was closed in the middle of a frame, of which this many bytes are there
  | unexpectedEof (incomplete : ℕ)
  | protocol (err : ProtocolError)
deriving DecidableEq

def validateCommon (magic version' : UInt8) : Except ProtocolError Unit :=
  if magic ≠ magicNumber then .error (.invalidMagic magic)
  else if version < version' then .error (.unsupportedVersion version')
  else .ok ()

def u32At (bytes : Bytes) (position : ℕ) : UInt32 :=
  .ofNat (ofLittleEndian ((bytes.drop position).take 4))

structure RequestHeader where
  magic : UInt8
  version : UInt8
  serializeType : UInt8
  msgType : UInt8
  sequence : UInt32
  functionId : UInt32
  bodyLen : UInt32
  attachmentLen : UInt32
deriving DecidableEq

namespace RequestHeader

def new (sequence functionId bodyLen attachmentLen : UInt32) : RequestHeader :=
  ⟨magicNumber, Rpc.version, structPackSerialization, 0, sequence, functionId, bodyLen, attachmentLen⟩

def encode (h : RequestHeader) : Bytes :=
  [h.magic, h.version, h.serializeType, h.msgType] ++ littleEndian 4 h.sequence.toNat ++
    littleEndian 4 h.functionId.toNat ++ littleEndian 4 h.bodyLen.toNat ++ littleEndian 4
    h.attachmentLen.toNat

def decode (bytes : Bytes) : Except ProtocolError RequestHeader := do
  if bytes.length ≠ requestHeaderLen then throw (.invalidHeaderLength requestHeaderLen bytes.length)
  let header : RequestHeader :=
    { magic := bytes.getD 0 0
      version := bytes.getD 1 0
      serializeType := bytes.getD 2 0
      msgType := bytes.getD 3 0
      sequence := u32At bytes 4
      functionId := u32At bytes 8
      bodyLen := u32At bytes 12
      attachmentLen := u32At bytes 16 }
  validateCommon header.magic header.version
  if header.serializeType ≠ structPackSerialization then throw (.unsupportedSerialization header.serializeType)
  return header

end RequestHeader

structure ResponseHeader where
  magic : UInt8
  version : UInt8
  errorCode : UInt8
  msgType : UInt8
  sequence : UInt32
  bodyLen : UInt32
  attachmentLen : UInt32
deriving DecidableEq

namespace ResponseHeader

def new (sequence : UInt32) (errorCode : UInt8) (bodyLen attachmentLen : UInt32) : ResponseHeader :=
  ⟨magicNumber, Rpc.version, errorCode, 0, sequence, bodyLen, attachmentLen⟩

def encode (h : ResponseHeader) : Bytes :=
  [h.magic, h.version, h.errorCode, h.msgType] ++ littleEndian 4 h.sequence.toNat ++ littleEndian 4
    h.bodyLen.toNat ++ littleEndian 4 h.attachmentLen.toNat

def decode (bytes : Bytes) : Except ProtocolError ResponseHeader := do
  if bytes.length ≠ responseHeaderLen then throw (.invalidHeaderLength responseHeaderLen bytes.length)
  let header : ResponseHeader :=
    { magic := bytes.getD 0 0
      version := bytes.getD 1 0
      errorCode := bytes.getD 2 0
      msgType := bytes.getD 3 0
      sequence := u32At bytes 4
      bodyLen := u32At bytes 8
      attachmentLen := u32At bytes 12 }
  validateCommon header.magic header.version
  return header

end ResponseHeader

/-! ### Codecs -/

/-- What a codec knows of the headers of its frames. -/
structure HeaderFormat (H : Type) where
  len : ℕ
  encode : H → Bytes
  decode : Bytes → Except ProtocolError H
  bodyLen : H → UInt32
  attachmentLen : H → UInt32

def requestFormat : HeaderFormat RequestHeader :=
  ⟨requestHeaderLen, RequestHeader.encode, RequestHeader.decode, (·.bodyLen), (·.attachmentLen)⟩

def responseFormat : HeaderFormat ResponseHeader :=
  ⟨responseHeaderLen, ResponseHeader.encode, ResponseHeader.decode, (·.bodyLen), (·.attachmentLen)⟩

structure Frame (H : Type) where
  header : H
  body : Bytes
  attachment : Bytes
deriving DecidableEq

abbrev RequestFrame := Frame RequestHeader

abbrev ResponseFrame := Frame ResponseHeader

/-- The checked conversion of a length to 32 bits. -/
def u32Length (length : ℕ) : Except ProtocolError UInt32 :=
  if length < 2 ^ 32 then .ok (.ofNat length) else .error .lengthOverflow

def payloadLengths (body attachment : Bytes) : Except ProtocolError (UInt32 × UInt32) := do
  return (← u32Length body.length, ← u32Length attachment.length)

def RequestFrame.new (sequence functionId : UInt32) (body attachment : Bytes) :
    Except ProtocolError RequestFrame := do
  let (bodyLen, attachmentLen) ← payloadLengths body attachment
  return ⟨.new sequence functionId bodyLen attachmentLen, body, attachment⟩

def ResponseFrame.new (sequence : UInt32) (errorCode : UInt8) (body attachment : Bytes) :
    Except ProtocolError ResponseFrame := do
  let (bodyLen, attachmentLen) ← payloadLengths body attachment
  return ⟨.new sequence errorCode bodyLen attachmentLen, body, attachment⟩

def validateLengths (bodyLen attachmentLen : UInt32) (limits : FrameLimits) :
    Except ProtocolError ℕ :=
  if limits.maxBodyLen < bodyLen.toNat then .error (.bodyTooLarge bodyLen limits.maxBodyLen)
  else if limits.maxAttachmentLen < attachmentLen.toNat then
    .error (.attachmentTooLarge attachmentLen limits.maxAttachmentLen)
  else
    match Word.checkedAdd 64 bodyLen.toNat attachmentLen.toNat with
    | some length => .ok length
    | none => .error .lengthOverflow

/-- The length of a whole frame, as `decode_payload` checks it. -/
def frameLen (headerLen : ℕ) (bodyLen attachmentLen : UInt32) (limits : FrameLimits) :
    Except ProtocolError ℕ := do
  let payloadLen ← validateLengths bodyLen attachmentLen limits
  match Word.checkedAdd 64 headerLen payloadLen with
  | some length => return length
  | none => throw .lengthOverflow

def Protocol.decodePayload (source : Bytes) (headerLen : ℕ) (bodyLen attachmentLen : UInt32)
    (limits : FrameLimits) : Except FrameError (Option (Bytes × Bytes)) × Bytes :=
  match frameLen headerLen bodyLen attachmentLen limits with
  | .error err => (.error (.protocol err), source)
  | .ok length =>
    if source.length < length then (.ok none, source)
    else
      let source := source.drop headerLen
      let body := source.take bodyLen.toNat
      let source := source.drop bodyLen.toNat
      let attachment := source.take attachmentLen.toNat
      (.ok (some (body, attachment)), source.drop attachmentLen.toNat)

def validateEncodedLength (field : String) (declared : UInt32) (actual : ℕ) :
    Except ProtocolError Unit :=
  if declared.toNat ≠ actual then .error (.lengthMismatch field declared actual) else .ok ()

def checkParts (header : Bytes) (bodyLen attachmentLen : UInt32) (body attachment : Bytes) :
    Except ProtocolError Unit := do
  validateEncodedLength "body" bodyLen body.length
  validateEncodedLength "attachment" attachmentLen attachment.length
  match (Word.checkedAdd 64 header.length body.length).bind (Word.checkedAdd 64 · attachment.length) with
  | some _ => return ()
  | none => throw .lengthOverflow

def encodeParts (header : Bytes) (bodyLen attachmentLen : UInt32)
    (body attachment destination : Bytes) : Except FrameError Unit × Bytes :=
  match checkParts header bodyLen attachmentLen body attachment with
  | .error err => (.error (.protocol err), destination)
  | .ok () => (.ok (), destination ++ header ++ body ++ attachment)

namespace HeaderFormat

variable {H : Type}

def decodeFrame (f : HeaderFormat H) (limits : FrameLimits) (source : Bytes) :
    Except FrameError (Option (Frame H)) × Bytes :=
  if source.length < f.len then (.ok none, source)
  else
    match f.decode (source.take f.len) with
    | .error err => (.error (.protocol err), source)
    | .ok header =>
      match Protocol.decodePayload source f.len (f.bodyLen header) (f.attachmentLen header) limits with
      | (.error err, source) => (.error err, source)
      | (.ok none, source) => (.ok none, source)
      | (.ok (some (body, attachment)), source) => (.ok (some ⟨header, body, attachment⟩), source)

def requireCompleteAtEof (source : Bytes) (decoded : Option (Frame H)) :
    Except FrameError (Option (Frame H)) :=
  match decoded with
  | some frame => .ok (some frame)
  | none => if source.isEmpty then .ok none else .error (.unexpectedEof source.length)

def decodeEof (f : HeaderFormat H) (limits : FrameLimits) (source : Bytes) :
    Except FrameError (Option (Frame H)) × Bytes :=
  match f.decodeFrame limits source with
  | (.error err, source) => (.error err, source)
  | (.ok decoded, source) => (requireCompleteAtEof source decoded, source)

def encodeFrame (f : HeaderFormat H) (frame : Frame H) (destination : Bytes) :
    Except FrameError Unit × Bytes :=
  encodeParts (f.encode frame.header) (f.bodyLen frame.header) (f.attachmentLen frame.header)
    frame.body frame.attachment destination

/-! ### Streams -/

def encodeAll (f : HeaderFormat H) : List (Frame H) → Bytes → Except FrameError Unit × Bytes
  | [], destination => (.ok (), destination)
  | frame :: frames, destination =>
    match f.encodeFrame frame destination with
    | (.error err, destination) => (.error err, destination)
    | (.ok (), destination) => encodeAll f frames destination

/-- Decodes until no frame is returned: the frames, the error if there was one, and what is left
in the buffer. -/
def drainWith (f : HeaderFormat H) (limits : FrameLimits) :
    ℕ → Bytes → List (Frame H) × Option FrameError × Bytes
  | 0, source => ([], none, source)
  | fuel + 1, source =>
    match f.decodeFrame limits source with
    | (.error err, source) => ([], some err, source)
    | (.ok none, source) => ([], none, source)
    | (.ok (some frame), source) =>
      let (frames, err, source) := drainWith f limits fuel source
      (frame :: frames, err, source)

/-- Every frame takes at least a byte, so that there are no more rounds than bytes. -/
def drain (f : HeaderFormat H) (limits : FrameLimits) (source : Bytes) :
    List (Frame H) × Option FrameError × Bytes :=
  f.drainWith limits (source.length + 1) source

/-- The chunks are received one after the other, and the buffer is drained after each. -/
def receive (f : HeaderFormat H) (limits : FrameLimits) :
    Bytes → List Bytes → List (Frame H) × Option FrameError × Bytes
  | source, [] => ([], none, source)
  | source, chunk :: chunks =>
    match f.drain limits (source ++ chunk) with
    | (frames, some err, source) => (frames, some err, source)
    | (frames, none, source) =>
      let (later, err, source) := receive f limits source chunks
      (frames ++ later, err, source)

end HeaderFormat

namespace RequestCodec

def decode : FrameLimits → Bytes → Except FrameError (Option RequestFrame) × Bytes :=
    requestFormat.decodeFrame

def decodeEof : FrameLimits → Bytes → Except FrameError (Option RequestFrame) × Bytes :=
  requestFormat.decodeEof

def encode : RequestFrame → Bytes → Except FrameError Unit × Bytes := requestFormat.encodeFrame

end RequestCodec

namespace ResponseCodec

def decode : FrameLimits → Bytes → Except FrameError (Option ResponseFrame) × Bytes :=
    responseFormat.decodeFrame

def decodeEof : FrameLimits → Bytes → Except FrameError (Option ResponseFrame) × Bytes :=
    responseFormat.decodeEof

def encode : ResponseFrame → Bytes → Except FrameError Unit × Bytes := responseFormat.encodeFrame

end ResponseCodec

end Cakemaster.Rpc
