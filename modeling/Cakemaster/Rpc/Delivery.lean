import Cakemaster.Rpc.FrameStream
import Cakemaster.Rpc.Outcomes

/-!
# Responses on a connection

From the results of the handlers, through the stream of the responses, to the callers.
-/

namespace Cakemaster.Rpc

open Wire List ResponseFrame

/-- The result of a handler. The caller is known by its sequence number. -/
structure Reply where
  sequence : UInt32
  type : Ty
  hash : UInt32
  result : Except RpcFailure (type.Value × Bytes)

theorem fits_of_new {sequence : UInt32} (h : new sequence code body attachment = .ok frame)
    (hbody : frame.body.length ≤ limits.maxBodyLen)
    (hattc : frame.attachment.length ≤ limits.maxAttachmentLen) :
    responseFormat.Fits ResponseHeader.Valid limits frame ∧ frame.header.sequence = sequence := by
  rw [new, payloadLengths, u32Length, u32Length] at h
  split at h
  · split at h
    · cases h
      exact ⟨⟨⟨rfl, UInt8.le_refl _⟩, UInt32.toNat_ofNat_of_lt' ‹_›, UInt32.toNat_ofNat_of_lt' ‹_›,
        hbody, hattc⟩, rfl⟩
    · cases h
  · cases h

theorem new_of_failureFrame {sequence : UInt32} {failure : RpcFailure}
    (h : failureFrame md5Hash32 sequence failure = some frame) :
    ∃ code body, new sequence code body [] = .ok frame := by
  have hnew : ∃ code body, (new sequence code body []).toOption = some frame := by
    rw [failureFrame] at h
    split at h <;> obtain ⟨body, -, hfrm⟩ := Option.bind_eq_some_iff.mp h <;> exact ⟨_, body, hfrm⟩
  obtain ⟨code, body, hfrm⟩ := hnew
  refine ⟨code, body, ?_⟩
  cases hcase : new sequence code body [] with
  | ok frame' => simpa [hcase, Except.toOption] using hfrm
  | error err => simp [hcase, Except.toOption] at hfrm

namespace Reply

section

variable (md5Hash32 : Bytes → UInt32) (display : StructPackError → String) (order : KeyOrder)

def frame (r : Reply) : Option ResponseFrame :=
  match r.result with
  | .ok (value, attachment) =>
    successFrame md5Hash32 display r.sequence r.type value attachment r.hash
  | .error failure => failureFrame md5Hash32 r.sequence failure

def outcome (r : Reply) : Except ResponseError (r.type.Value × Bytes) :=
  r.result.mapError fun failure => .remote failure.code failure.message

/-- The caller finds the result in the frame. -/
def Answered (r : Reply) (frame : ResponseFrame) : Prop :=
  frame.header.sequence = r.sequence ∧
    decodeResponse md5Hash32 order r.type frame r.hash = r.outcome

/-- The frame is within the limits of the client, and so are the containers in it. -/
structure Sendable (limits : FrameLimits) (r : Reply) : Prop where
  supported : r.type.Supported
  hash : r.hash &&& 0xfffffffe = r.hash
  value : ∀ value attachment, r.result = .ok (value, attachment) →
    Ordered order r.type value ∧ Within defaultContainerLimit r.type value ∧
      (∀ body, serializeWithTypeHash r.type value r.hash = .ok body → body.length < 2 ^ 32) ∧
      attachment.length < 2 ^ 32
  failure : ∀ failure, r.result = .error failure →
    (∃ code message, failure = .new code message) ∧
      (utf8Bytes failure.message).length ≤ defaultContainerLimit
  small : ∀ frame, r.frame md5Hash32 display = some frame →
    frame.body.length ≤ limits.maxBodyLen ∧ frame.attachment.length ≤ limits.maxAttachmentLen

end

variable {md5Hash32 : Bytes → UInt32} {display : StructPackError → String} {order : KeyOrder}
  {limits : FrameLimits}

theorem Sendable.exists_frame {r : Reply} (h : r.Sendable md5Hash32 display order limits) :
    ∃ frame, r.frame md5Hash32 display = some frame ∧
      responseFormat.Fits ResponseHeader.Valid limits frame ∧ r.Answered md5Hash32 order frame := by
  cases hres : r.result with
  | ok result =>
    obtain ⟨value, attachment⟩ := result
    obtain ⟨hordered, hwithin, hbody, hattc⟩ := h.value value attachment hres
    obtain ⟨_, _, -, hser, hrds⟩ := exists_payload h.supported hordered (by decide) hwithin
    have hhash := hser r.hash
    have hread := deserialize_eq r.hash hrds
    rw [h.hash] at hread
    obtain ⟨frame, hnew, herro, hfrm, hfrm'⟩ := new_frame r.sequence 0 (hbody _ hhash) hattc
    have hsent : r.frame md5Hash32 display = some frame := by
      simp only [Reply.frame, hres, successFrame, hhash, hnew]
    obtain ⟨hfits, hsq⟩ := fits_of_new hnew (h.small frame hsent).1 (h.small frame hsent).2
    refine ⟨frame, hsent, hfits, hsq, ?_⟩
    rw [decodeResponse, herro, hfrm, hfrm', hread, outcome, hres]
    rfl
  | error failure =>
    obtain ⟨⟨code, message, rfl⟩, hmsg⟩ := h.failure failure hres
    obtain ⟨frame, hfrm, hdecode⟩ : ∃ frame,
        failureFrame md5Hash32 r.sequence (.new code message) = some frame ∧
        decodeResponse md5Hash32 order r.type frame r.hash = .error (.remote _ message) :=
      failure_round_trip r.sequence r.type r.hash (RpcFailure.new_code_ne_zero code message) hmsg
    have hsent : r.frame md5Hash32 display = some frame := by simp only [Reply.frame, hres, hfrm]
    obtain ⟨code, _, hnew⟩ := new_of_failureFrame hfrm
    obtain ⟨hfits, hsq⟩ := fits_of_new hnew (h.small frame hsent).1 (h.small frame hsent).2
    refine ⟨frame, hsent, hfits, hsq, ?_⟩
    rw [hdecode, outcome, hres]
    rfl

theorem exists_frames {replies : List Reply}
    (h : ∀ r ∈ replies, r.Sendable md5Hash32 display order limits) :
    ∃ frames, replies.mapM (Reply.frame md5Hash32 display) = some frames ∧
      (∀ frame ∈ frames, responseFormat.Fits ResponseHeader.Valid limits frame) ∧
      Forall₂ (Answered md5Hash32 order) replies frames := by
  induction replies with
  | nil => exact ⟨[], rfl, by simp, .nil⟩
  | cons r replies ih =>
    obtain ⟨frame, hfrm, hfits, hanswered⟩ := (h r mem_cons_self).exists_frame
    obtain ⟨frames, hfrms, hall, hanswers⟩ := ih fun r' hr' => h r' (mem_cons_of_mem r hr')
    exact ⟨frame :: frames, by simp [hfrm, hfrms], forall_mem_cons.mpr ⟨hfits, hall⟩, .cons hanswered hanswers⟩

end Reply

/-- **Delivery.** The responses to any calls, in whatever pieces their stream arrives: each caller
gets the result of its handler, under its own sequence number, and nothing is left over. -/
theorem replies_delivered (md5Hash32 : Bytes → UInt32) (display : StructPackError → String)
    (order : KeyOrder) (limits : FrameLimits) (replies : List Reply)
    (h : ∀ r ∈ replies, r.Sendable md5Hash32 display order limits) :
    ∃ frames stream, replies.mapM (Reply.frame md5Hash32 display) = some frames ∧
      responseFormat.encodeAll frames [] = (.ok (), stream) ∧
      ∀ chunks : List Bytes, chunks.flatten = stream → ∃ received,
        responseFormat.receive limits [] chunks = (received, none, []) ∧
        Forall₂ (Reply.Answered md5Hash32 order) replies received := by
  obtain ⟨frames, hsent, hfits, hanswers⟩ := Reply.exists_frames h
  obtain ⟨stream, henc, hreceive⟩ := (lawful_responseFormat.streams limits).whole frames hfits
  exact ⟨frames, stream, hsent, henc, fun chunks hchunks => ⟨frames, hreceive chunks hchunks, hanswers⟩⟩

/-- A value and a failure. -/
def sampleReplies : List Reply :=
  [⟨7, .bool, 12, .ok (true, [1])⟩, ⟨9, .bool, 12, .error (.new 404 "gone")⟩]

theorem replies_delivered_both : ∃ (stream : Bytes) (received : List ResponseFrame),
    responseFormat.receive .default [] [stream.take 25, stream.drop 25] = (received, none, []) ∧
      Forall₂ (Reply.Answered sampleDigest boolOrder) sampleReplies received := by
  obtain ⟨_, stream, -, -, hreceive⟩ := replies_delivered sampleDigest (fun _ => "") boolOrder
    .default sampleReplies (forall_mem_cons.mpr
    ⟨⟨trivial, rfl, by rintro _ _ ⟨⟩; exact ⟨trivial, trivial, by rintro _ ⟨⟩; decide, by decide⟩,
      by rintro _ ⟨⟩, by rintro _ ⟨⟩; decide⟩, forall_mem_singleton.mpr
      ⟨trivial, rfl, by rintro _ _ ⟨⟩, by rintro _ ⟨⟩; exact ⟨⟨404, "gone", rfl⟩, by decide⟩,
      by rintro _ ⟨⟩; decide⟩⟩)
  exact ⟨stream, hreceive _ (by simp)⟩

end Cakemaster.Rpc
