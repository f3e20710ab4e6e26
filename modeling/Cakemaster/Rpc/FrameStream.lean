import Cakemaster.Rpc.Protocol

/-!
# Streams of frames

A codec that receives the encodings of frames in pieces of any size returns the frames. At
any time the buffer holds a part of the next frame that is not the whole of it
(`Pending`); a decoder leaves such a part untouched, and more bytes complete it.
-/

namespace Cakemaster.Rpc

open Machine Wire List Protocol Nat

/-! ### Headers -/

theorem u32At_littleEndian (front back : Bytes) (x : UInt32) (h : front.length = position) :
    u32At (front ++ (littleEndian 4 x.toNat ++ back)) position = x := by
  have hx : x.toNat < 256 ^ 4 := x.toNat_lt
  rw [u32At, drop_left' h, take_left' (length_littleEndian _ _), ofLittleEndian_littleEndian hx,
    UInt32.ofNat_toNat]

def RequestHeader.Valid (h : RequestHeader) : Prop :=
  h.magic = magicNumber ∧ h.version ≤ Rpc.version ∧ h.serializeType = structPackSerialization

def ResponseHeader.Valid (h : ResponseHeader) : Prop :=
  h.magic = magicNumber ∧ h.version ≤ Rpc.version

theorem RequestHeader.length_encode (h : RequestHeader) : h.encode.length = requestHeaderLen := by
  simp [encode, requestHeaderLen]

theorem ResponseHeader.length_encode (h : ResponseHeader) :
    h.encode.length = responseHeaderLen := by
  simp [encode, responseHeaderLen]

theorem validateCommon_ok (hmagic : magic = magicNumber) (hver : version' ≤ Rpc.version) :
    validateCommon magic version' = .ok () := by
  simp [validateCommon, hmagic, UInt8.not_lt.mpr hver]

theorem RequestHeader.decode_encode (hvld : h.Valid) : decode h.encode = .ok h := by
  obtain ⟨hmagic, hver, hser⟩ := hvld
  have hsq : u32At h.encode 4 = h.sequence := by
    rw [encode]
    simp only [append_assoc]
    exact u32At_littleEndian _ _ _ rfl
  have hfun : u32At h.encode 8 = h.functionId := by
    rw [encode, append_assoc, append_assoc]
    exact u32At_littleEndian _ _ _ rfl
  have hbody : u32At h.encode 12 = h.bodyLen := by
    rw [encode, append_assoc]
    exact u32At_littleEndian _ _ _ rfl
  have hattc : u32At h.encode 16 = h.attachmentLen := by
    rw [encode, ← append_nil (_ ++ littleEndian 4 h.attachmentLen.toNat), append_assoc]
    exact u32At_littleEndian _ _ _ rfl
  have hhead : h.encode.getD 0 0 = h.magic ∧ h.encode.getD 1 0 = h.version ∧
      h.encode.getD 2 0 = h.serializeType ∧ h.encode.getD 3 0 = h.msgType := ⟨rfl, rfl, rfl, rfl⟩
  have hcommon := validateCommon_ok hmagic hver
  simp only [decode, length_encode, ne_eq, not_true_eq_false, if_false, hhead, hsq, hfun, hbody,
    hattc, hser]
  rw [← hser, hcommon]
  rfl

example : (RequestHeader.new 0x01020304 0xcbb11ed8 9 3).encode =
    [0x15, 0, 0, 0, 4, 3, 2, 1, 0xd8, 0x1e, 0xb1, 0xcb, 9, 0, 0, 0, 3, 0, 0, 0] := by decide

theorem ResponseHeader.decode_encode (hvld : h.Valid) : decode h.encode = .ok h := by
  obtain ⟨hmagic, hver⟩ := hvld
  have hsq : u32At h.encode 4 = h.sequence := by
    rw [encode, append_assoc, append_assoc]
    exact u32At_littleEndian _ _ _ rfl
  have hbody : u32At h.encode 8 = h.bodyLen := by
    rw [encode, append_assoc]
    exact u32At_littleEndian _ _ _ rfl
  have hattc : u32At h.encode 12 = h.attachmentLen := by
    rw [encode, ← append_nil (_ ++ littleEndian 4 h.attachmentLen.toNat), append_assoc]
    exact u32At_littleEndian _ _ _ rfl
  have hhead : h.encode.getD 0 0 = h.magic ∧ h.encode.getD 1 0 = h.version ∧
      h.encode.getD 2 0 = h.errorCode ∧ h.encode.getD 3 0 = h.msgType := ⟨rfl, rfl, rfl, rfl⟩
  have hcommon := validateCommon_ok hmagic hver
  simp only [decode, length_encode, ne_eq, not_true_eq_false, if_false, hhead, hsq, hbody, hattc]
  rw [hcommon]
  rfl

/-- Headers of one length, with those that the decoder reads back. -/
structure HeaderFormat.Lawful {H : Type} (f : HeaderFormat H) (valid : H → Prop) : Prop where
  len_pos : 0 < f.len
  len_lt : f.len < 2 ^ 32
  length_encode : ∀ h, (f.encode h).length = f.len
  decode_encode : ∀ h, valid h → f.decode (f.encode h) = .ok h

theorem lawful_requestFormat : requestFormat.Lawful RequestHeader.Valid where
  len_pos := by decide
  len_lt := by decide
  length_encode := RequestHeader.length_encode
  decode_encode _ := RequestHeader.decode_encode

theorem lawful_responseFormat : responseFormat.Lawful ResponseHeader.Valid where
  len_pos := by decide
  len_lt := by decide
  length_encode := ResponseHeader.length_encode
  decode_encode _ := ResponseHeader.decode_encode

/-! ### Single frames -/

namespace HeaderFormat

variable {H : Type} {f : HeaderFormat H} {valid : H → Prop} {limits : FrameLimits} {part : Bytes}
  {before after frames : List (Frame H)}

/-- The header is valid, and it declares the payload, which is within the limits. -/
structure Fits (f : HeaderFormat H) (valid : H → Prop) (limits : FrameLimits) (frame : Frame H) :
    Prop where
  header : valid frame.header
  body : (f.bodyLen frame.header).toNat = frame.body.length
  attachment : (f.attachmentLen frame.header).toNat = frame.attachment.length
  body_le : frame.body.length ≤ limits.maxBodyLen
  attachment_le : frame.attachment.length ≤ limits.maxAttachmentLen

def wire (f : HeaderFormat H) (frame : Frame H) : Bytes :=
  f.encode frame.header ++ frame.body ++ frame.attachment

def wires (f : HeaderFormat H) (frames : List (Frame H)) : Bytes := (frames.map f.wire).flatten

section Single

variable {frame : Frame H} (hf : f.Lawful valid) (hfits : f.Fits valid limits frame)
include hf hfits

theorem encodeFrame_fits (destination : Bytes) :
    f.encodeFrame frame destination = (.ok (), destination ++ f.wire frame) := by
  have hbody := (f.bodyLen frame.header).toNat_lt
  have hattc := (f.attachmentLen frame.header).toNat_lt
  have hlen := hf.len_lt
  have hchk : checkParts (f.encode frame.header) (f.bodyLen frame.header)
      (f.attachmentLen frame.header) frame.body frame.attachment = .ok () := by
    rw [hfits.body] at hbody
    rw [hfits.attachment] at hattc
    have hsum : f.len + frame.body.length < 2 ^ 64 := by omega
    have hsum' : f.len + frame.body.length + frame.attachment.length < 2 ^ 64 := by omega
    simp only [checkParts, validateEncodedLength, hfits.body, hfits.attachment, ne_eq,
      not_true_eq_false, if_false, hf.length_encode, Word.checkedAdd, if_pos hsum, Option.bind_some,
      if_pos hsum']
    rfl
  simp [encodeFrame, encodeParts, hchk, wire]

theorem frameLen_fits : frameLen f.len (f.bodyLen frame.header)
    (f.attachmentLen frame.header) limits = .ok (f.wire frame).length := by
  have hbody := (f.bodyLen frame.header).toNat_lt
  have hattc := (f.attachmentLen frame.header).toNat_lt
  have hlen := hf.len_lt
  have hbody_le := hfits.body_le
  have hattachment_le := hfits.attachment_le
  rw [hfits.body] at hbody
  rw [hfits.attachment] at hattc
  have hpay : frame.body.length + frame.attachment.length < 2 ^ 64 := by omega
  have hfrm : f.len + (frame.body.length + frame.attachment.length) < 2 ^ 64 := by omega
  have hvalidate : validateLengths (f.bodyLen frame.header) (f.attachmentLen frame.header) limits =
      .ok (frame.body.length + frame.attachment.length) := by
    simp only [validateLengths, hfits.body, hfits.attachment, not_lt.mpr hbody_le,
      not_lt.mpr hattachment_le, if_false, Word.checkedAdd, if_pos hpay]
  have hlth : (f.wire frame).length = f.len + (frame.body.length + frame.attachment.length) := by
    simp [wire, hf.length_encode]
  rw [frameLen, hvalidate, hlth]
  simp only [bind, Except.bind, Word.checkedAdd, if_pos hfrm]
  rfl

theorem decodeFrame_wire (rest : Bytes) :
    f.decodeFrame limits (f.wire frame ++ rest) = (.ok (some frame), rest) := by
  have hwire : f.wire frame ++ rest = f.encode frame.header ++ (frame.body ++ (frame.attachment ++ rest)) := by
    simp [wire]
  have hlth := hf.length_encode frame.header
  have hhdr : (f.wire frame ++ rest).take f.len = f.encode frame.header := by
    rw [hwire, take_left' hlth]
  have hshort : ¬(f.wire frame ++ rest).length < f.len := by
    rw [hwire, length_append, hlth]
    omega
  have hwhole : ¬(f.wire frame ++ rest).length < (f.wire frame).length := by
    rw [length_append]
    omega
  rw [decodeFrame, if_neg hshort, hhdr, hf.decode_encode _ hfits.header]
  simp only [decodePayload, frameLen_fits hf hfits, if_neg hwhole]
  rw [hwire, drop_left' hlth, hfits.body, hfits.attachment, take_left, drop_left, take_left,
    drop_left]

theorem decodeFrame_part (hpart : part <+: f.wire frame)
    (hshort : part.length < (f.wire frame).length) :
    f.decodeFrame limits part = (.ok none, part) := by
  rw [decodeFrame]
  split
  · rfl
  next hlen =>
  have hhdr : part.take f.len = f.encode frame.header := by
    obtain ⟨rest, hrest⟩ := hpart
    have htake : (part ++ rest).take f.len = part.take f.len :=
      take_append_of_le_length (not_lt.mp hlen)
    rw [← htake, hrest, wire, append_assoc, take_left' (hf.length_encode _)]
  rw [hhdr, hf.decode_encode _ hfits.header]
  simp only [decodePayload, frameLen_fits hf hfits, if_pos hshort]

end Single

/-- A payload that is not there as a whole is not touched. -/
theorem payload_untouched {source : Bytes} {headerLen : ℕ} {bodyLen attachmentLen : UInt32}
    (h : ∀ payload, (decodePayload source headerLen bodyLen attachmentLen limits).1 ≠ .ok (some payload)) :
    (decodePayload source headerLen bodyLen attachmentLen limits).2 = source := by
  rw [decodePayload] at h ⊢
  cases hlen : frameLen headerLen bodyLen attachmentLen limits with
  | error err => rfl
  | ok length =>
    simp only [hlen] at h ⊢
    by_cases hshort : source.length < length
    · rw [if_pos hshort]
    · rw [if_neg hshort] at h
      exact absurd rfl (h _)

/-- A decoder that returns no frame leaves the buffer as it is. -/
theorem decodeFrame_untouched {source : Bytes}
    (h : ∀ frame, (f.decodeFrame limits source).1 ≠ .ok (some frame)) :
    (f.decodeFrame limits source).2 = source := by
  rw [decodeFrame] at h ⊢
  split
  · rfl
  next hlen =>
  rw [if_neg hlen] at h
  cases hhdr : f.decode (source.take f.len) with
  | error err => rfl
  | ok header =>
    have huntouched := @payload_untouched limits source f.len (f.bodyLen header) (f.attachmentLen header)
    simp only [hhdr] at h ⊢
    generalize decodePayload source f.len (f.bodyLen header) (f.attachmentLen header)
      limits = result at h huntouched ⊢
    rcases result with ⟨err | _ | ⟨_, _⟩, _⟩
    · exact huntouched (fun _ => nofun)
    · exact huntouched (fun _ => nofun)
    · exact absurd rfl (h _)

/-! ### Streams -/

@[simp] theorem wires_nil : f.wires [] = [] := rfl

@[simp] theorem wires_cons (frame : Frame H) (frames : List (Frame H)) :
    f.wires (frame :: frames) = f.wire frame ++ f.wires frames := rfl

@[simp] theorem wires_append (frames frames' : List (Frame H)) :
    f.wires (frames ++ frames') = f.wires frames ++ f.wires frames' := by
  simp [wires]

/-- The buffer before the given frames: a part of the first of them, but not the whole. -/
def Pending (f : HeaderFormat H) (frames : List (Frame H)) (part : Bytes) : Prop :=
  match frames with
  | [] => part = []
  | frame :: _ => part <+: f.wire frame ∧ part.length < (f.wire frame).length

/-- A stream that breaks off consists of whole frames and a part of the next one. -/
theorem exists_pending (frames : List (Frame H)) {stream : Bytes} (h : stream <+: f.wires frames) :
    ∃ before after part, frames = before ++ after ∧ stream = f.wires before ++ part ∧
      f.Pending after part := by
  induction frames generalizing stream with
  | nil =>
    refine ⟨[], [], stream, rfl, rfl, ?_⟩
    rw [wires_nil, prefix_nil] at h
    exact h
  | cons frame frames ih =>
    rw [wires_cons] at h
    by_cases hlen : stream.length < (f.wire frame).length
    · refine ⟨[], frame :: frames, stream, rfl, rfl, ?_, hlen⟩
      exact prefix_of_prefix_length_le h (prefix_append _ _) hlen.le
    · obtain ⟨_, rfl⟩ := prefix_of_prefix_length_le (prefix_append _ _) h (not_lt.mp hlen)
      obtain ⟨before, after, part, hfrms, hrest, hpend⟩ := ih ((prefix_append_right_inj _).mp h)
      refine ⟨frame :: before, after, part, by rw [hfrms, cons_append], ?_, hpend⟩
      rw [hrest, wires_cons, append_assoc]

theorem pending_unique (hfrms : before ++ after = before' ++ after') (hpend : f.Pending after part)
    (hpend' : f.Pending after' part') (hstrm : f.wires before ++ part = f.wires before' ++ part') :
    before = before' ∧ part = part' := by
  have hlong : ∀ {frames frames' : List (Frame H)} {frame : Frame H} {part rest : Bytes},
      f.Pending frames part → frames = frame :: frames' → part ≠ f.wire frame ++ rest := by
    intro frames frames' frame part rest h heq hpart
    subst heq
    have hlen := h.2
    rw [hpart, length_append] at hlen
    omega
  induction before generalizing before' with
  | nil =>
    cases before' with
    | nil => exact ⟨rfl, hstrm⟩
    | cons frame before' =>
      rw [wires_nil, nil_append, wires_cons, append_assoc] at hstrm
      exact absurd hstrm (hlong hpend hfrms)
  | cons frame before ih =>
    cases before' with
    | nil =>
      rw [wires_nil, nil_append, wires_cons, append_assoc] at hstrm
      exact absurd hstrm.symm (hlong hpend' hfrms.symm)
    | cons frame' before' =>
      obtain ⟨rfl, hrest⟩ := cons.inj hfrms
      rw [wires_cons, wires_cons, append_assoc, append_assoc] at hstrm
      obtain ⟨rfl, rfl⟩ := ih hrest (append_cancel_left hstrm)
      exact ⟨rfl, rfl⟩

section Stream

variable (hf : f.Lawful valid)
include hf

theorem length_wire_pos (frame : Frame H) : 0 < (f.wire frame).length := by
  have hpos := hf.len_pos
  rw [wire, length_append, length_append, hf.length_encode]
  omega

theorem length_le_wires (frames : List (Frame H)) : frames.length ≤ (f.wires frames).length := by
  induction frames with
  | nil => exact le_refl 0
  | cons frame frames ih =>
    have hpos := length_wire_pos hf frame
    rw [wires_cons, length_append, length_cons]
    omega

theorem encodeAll_fits (hfits : ∀ frame ∈ frames, f.Fits valid limits frame)
    (destination : Bytes) :
    f.encodeAll frames destination = (.ok (), destination ++ f.wires frames) := by
  induction frames generalizing destination with
  | nil => rw [encodeAll, wires_nil, append_nil]
  | cons frame frames ih =>
    rw [encodeAll, encodeFrame_fits hf (hfits frame mem_cons_self)]
    dsimp only
    rw [ih (fun frame h => hfits frame (mem_cons_of_mem _ h)), wires_cons, append_assoc]

theorem decodeFrame_pending (hfits : ∀ frame ∈ frames, f.Fits valid limits frame)
    (hpend : f.Pending frames part) :
    f.decodeFrame limits part = (.ok none, part) := by
  cases frames with
  | nil =>
    cases hpend
    rw [decodeFrame, length_nil, if_pos hf.len_pos]
  | cons frame frames => exact decodeFrame_part hf (hfits frame mem_cons_self) hpend.1 hpend.2

section

variable (hfits : ∀ frame ∈ before ++ after, f.Fits valid limits frame)
  (hpend : f.Pending after part)
include hfits hpend

theorem drainWith_wires (hfuel : before.length < fuel) :
    f.drainWith limits fuel (f.wires before ++ part) = (before, none, part) := by
  induction before generalizing fuel with
  | nil =>
    obtain ⟨fuel, rfl⟩ := exists_eq_succ_of_ne_zero (ne_of_gt hfuel)
    rw [wires_nil, nil_append, drainWith, decodeFrame_pending hf hfits hpend]
  | cons frame before ih =>
    obtain ⟨fuel, rfl⟩ := exists_eq_succ_of_ne_zero (ne_of_gt (zero_lt_of_lt hfuel))
    rw [wires_cons, append_assoc, drainWith, decodeFrame_wire hf (hfits frame mem_cons_self)]
    dsimp only
    rw [ih (fun frame h => hfits frame (mem_cons_of_mem _ h)) (lt_of_succ_lt_succ hfuel)]

theorem drain_wires : f.drain limits (f.wires before ++ part) = (before, none, part) := by
  apply drainWith_wires hf hfits hpend
  have hle := length_le_wires hf before
  rw [length_append]
  omega

end

/-- Whatever the pieces, the whole frames among the bytes received so far have been returned. -/
theorem receive_wires (hfits : ∀ frame ∈ frames, f.Fits valid limits frame)
    (hpend : f.Pending frames part) (hstrm : part ++ chunks.flatten <+: f.wires frames) :
    ∃ before after rest, frames = before ++ after ∧
    part ++ chunks.flatten = f.wires before ++ rest ∧
      f.Pending after rest ∧ f.receive limits part chunks = (before, none, rest) := by
  -- between two chunks the buffer is a part of the first frame that has not come back
  induction chunks generalizing frames part with
  | nil => exact ⟨[], frames, part, rfl, by simp, hpend, rfl⟩
  | cons chunk chunks ih =>
    rw [flatten_cons, ← append_assoc] at hstrm
    obtain ⟨before, after, rest, rfl, hchunk, hrest⟩ :=
      exists_pending frames ((prefix_append _ _).trans hstrm)
    have hltr : rest ++ chunks.flatten <+: f.wires after := by
      rw [hchunk, append_assoc, wires_append] at hstrm
      exact (prefix_append_right_inj _).mp hstrm
    obtain ⟨before', after', rest', rfl, hbyt, hpend', hreceive⟩ :=
      ih (fun frame h => hfits frame (mem_append_right _ h)) hrest hltr
    refine ⟨before ++ before', after', rest', by rw [append_assoc], ?_, hpend', ?_⟩
    · rw [flatten_cons, ← append_assoc, hchunk, append_assoc, hbyt, wires_append, append_assoc]
    · rw [receive, hchunk, drain_wires hf hfits hrest]
      simp only [hreceive]

theorem pending_nil (frames : List (Frame H)) : f.Pending frames [] := by
  cases frames with
  | nil => rfl
  | cons frame frames => exact ⟨List.nil_prefix, length_wire_pos hf frame⟩

theorem receive_eq (hfits : ∀ frame ∈ before ++ after, f.Fits valid limits frame)
    (hpend : f.Pending after rest) (hpart : rest <+: f.wires after)
    (hchunks : chunks.flatten = f.wires before ++ rest) :
    f.receive limits [] chunks = (before, none, rest) := by
  have hstrm : [] ++ chunks.flatten <+: f.wires (before ++ after) := by
    rw [nil_append, hchunks, wires_append]
    exact (prefix_append_right_inj _).mpr hpart
  obtain ⟨_, _, _, hfrms, hbyt, hpend', hreceive⟩ :=
    receive_wires hf hfits (pending_nil hf _) hstrm
  rw [nil_append, hchunks] at hbyt
  obtain ⟨rfl, rfl⟩ := pending_unique hfrms hpend hpend' hbyt
  exact hreceive

end Stream

/-! ### The codecs -/

/-- What a streaming codec does with the encodings of frames. -/
structure Streams (f : HeaderFormat H) (valid : H → Prop) (limits : FrameLimits) : Prop where
  /-- The frames come back, however their encodings are cut into chunks. -/
  whole : ∀ frames, (∀ frame ∈ frames, f.Fits valid limits frame) →
    ∃ stream, f.encodeAll frames [] = (.ok (), stream) ∧
      ∀ chunks : List Bytes, chunks.flatten = stream →
      f.receive limits [] chunks = (frames, none, [])
  /-- A stream that breaks off within a frame: the frames before it come back, and the end of
  the stream is an error. -/
  cut : ∀ before frame after, (∀ frame' ∈ before ++ frame :: after, f.Fits valid limits frame') →
    ∃ stream part, f.encodeAll before [] = (.ok (), stream) ∧
    f.encodeFrame frame [] = (.ok (), part) ∧
      ∀ chunks : List Bytes, ∀ rest, rest <+: part → rest ≠ [] → rest ≠ part →
      chunks.flatten = stream ++ rest →
        f.receive limits [] chunks = (before, none, rest) ∧ ∃ err, f.decodeEof limits rest = (.error err, rest)
  /-- A decoder that returns no frame or an error consumes nothing. -/
  untouched : ∀ source, (∀ frame, (f.decodeFrame limits source).1 ≠ .ok (some frame)) →
    (f.decodeFrame limits source).2 = source

theorem Lawful.streams (hf : f.Lawful valid) (limits : FrameLimits) : f.Streams valid limits where
  whole frames hfits := by
    refine ⟨f.wires frames, by simpa using encodeAll_fits hf hfits [], fun chunks hchunks => ?_⟩
    have hnil : f.Pending [] [] := rfl
    have hfits' : ∀ frame ∈ frames ++ [], f.Fits valid limits frame := by rwa [append_nil]
    exact receive_eq hf hfits' hnil nil_prefix (by rw [hchunks, append_nil])
  cut before frame after hfits := by
    have hfrm := hfits frame (by simp)
    have hbef : ∀ frame' ∈ before, f.Fits valid limits frame' :=
      fun frame' h => hfits frame' (mem_append_left _ h)
    refine ⟨f.wires before, f.wire frame, by simpa using encodeAll_fits hf hbef [],
      by simpa using encodeFrame_fits hf hfrm [], ?_⟩
    intro chunks rest hrest hne hproper hchunks
    have hpend : f.Pending (frame :: after) rest := by
      refine ⟨hrest, lt_of_le_of_ne hrest.length_le fun hlen => hproper ?_⟩
      exact hrest.eq_of_length hlen
    refine ⟨receive_eq hf hfits hpend (hrest.trans (prefix_append _ _)) hchunks, .unexpectedEof rest.length, ?_⟩
    rw [decodeEof, decodeFrame_pending hf (fun frame' h => hfits frame' (mem_append_right _ h)) hpend]
    simp [requireCompleteAtEof, hne]
  untouched _ := decodeFrame_untouched

end HeaderFormat

/-- Both codecs return the frames that were sent, whatever pieces their encodings arrive in. -/
theorem frames_streamed (limits : FrameLimits) :
    requestFormat.Streams RequestHeader.Valid limits ∧
      responseFormat.Streams ResponseHeader.Valid limits :=
  ⟨lawful_requestFormat.streams limits, lawful_responseFormat.streams limits⟩

/-- Two responses, cut within the header of the first. -/
theorem frames_streamed_pieces :
    let frames := [⟨.new 7 0 2 1, [1, 2], [3]⟩, ⟨.new 9 1 1 0, [4], []⟩]
    ∃ stream, responseFormat.encodeAll frames [] = (.ok (), stream) ∧
      responseFormat.receive .default [] [stream.take 5, [], stream.drop 5] = (frames, none, []) := by
  intro frames
  obtain ⟨stream, hencoded, hreceive⟩ := (frames_streamed .default).2.whole frames (by
    refine forall_mem_cons.mpr ⟨?_, forall_mem_singleton.mpr ?_⟩ <;>
      exact ⟨⟨rfl, UInt8.le_refl _⟩, rfl, rfl, by decide, by decide⟩)
  exact ⟨stream, hencoded, hreceive _ (by simp)⟩

end Cakemaster.Rpc
