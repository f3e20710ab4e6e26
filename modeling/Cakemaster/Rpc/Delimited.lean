import Cakemaster.Rpc.RoundTrip

/-!
# Self-delimiting messages

A decoder that has succeeded is not disturbed by further bytes. So a message that was cut off is
never read as a whole one, and a message with something behind it is refused.
-/

namespace Cakemaster.Rpc

open Wire Except

variable {order : KeyOrder} {w : LengthWidth} {limit : ℕ} {md5Hash32 : Bytes → UInt32}

/-! ### Payloads -/

theorem stable_uint (width : ℕ) : Stable (readUint width) :=
  (Stable.exactly _ _).bind fun _ => .pure _

theorem stable_u8 : Stable readU8 :=
  (stable_uint 1).bind fun _ => .pure _

theorem stable_len : Stable (readLen w limit) :=
  (stable_uint _).bind fun _ => .ite (.fail _) (.pure _)

theorem stable_char (value : ℕ) : Stable (decodeChar value) := .ite (.pure _) (.fail _)

theorem stable_bool (value : UInt8) :
    Stable (decodeBool value) := .ite (.pure _) (.ite (.pure _) (.fail _))

theorem stable_utf8 (bytes : Bytes) : Stable (decodeUtf8 bytes) := by
  unfold decodeUtf8
  split
  · exact .pure _
  · exact .fail _

theorem stable_discriminant (e : EnumType) (value : ℤ) : Stable (decodeDiscriminant e value) :=
  .dite (fun _ => .pure _) fun _ => .fail _

mutual

theorem stable_payload : (t : Ty) → Stable (decodePayload order w limit t)
  | .scalar s => (stable_uint s.width).bind fun _ => .pure _
  | .bool => stable_u8.bind stable_bool
  | .char => (stable_uint 4).bind stable_char
  | .unit => .pure ()
  | .string => stable_len.bind fun length => (Stable.exactly _ length).bind stable_utf8
  | .byteString => stable_len.bind fun length => .exactly _ length
  | .vec t => stable_len.bind (stable_payload t).replicate
  | .array t n => ((stable_payload t).replicate n).bind fun _ =>
    .dite (fun _ => .pure _) fun _ => .fail _
  | .option t => stable_u8.bind fun _ =>
    .ite (.pure _) (.ite ((stable_payload t).bind fun _ => .pure _) (.fail _))
  | .result t e => stable_u8.bind fun _ =>
    .ite ((stable_payload e).bind fun _ => .pure _) (.ite ((stable_payload t).bind fun _ => .pure _) (.fail _))
  | .map k v =>
    stable_len.bind fun length =>
      (((stable_payload k).bind fun _ => (stable_payload v).bind fun _ => .pure _).replicate
        length).bind fun _ => .pure _
  | .set t => stable_len.bind fun length =>
    ((stable_payload t).replicate length).bind fun _ => .pure _
  | .product _ fields => stable_fields fields
  | .enum e => (stable_uint _).bind fun _ => stable_discriminant e _
  | .union _ alternatives => stable_u8.bind fun index =>
    stable_alternative _ alternatives index.toNat

theorem stable_fields : (ts : List Ty) → Stable (decodeFields order w limit ts)
  | [] => .pure ()
  | t :: ts => (stable_payload t).bind fun _ => (stable_fields ts).bind fun _ => .pure _

theorem stable_alternative (unknown : StructPackError) :
    (ts : List Ty) → (index : ℕ) → Stable (decodeAlternative order w limit unknown ts index)
  | [], _ => .fail unknown
  | t :: _, 0 => (stable_payload t).bind fun _ => .pure _
  | _ :: ts, index + 1 => (stable_alternative unknown ts index).bind fun _ => .pure _

end

/-! ### Headers -/

theorem stable_declaredSize (metadata : UInt8) : Stable (readDeclaredSize metadata) := by
  unfold readDeclaredSize
  split
  · exact .pure _
  · exact (stable_uint 2).bind fun _ => .pure _
  · exact (stable_uint 4).bind fun _ => .pure _
  · exact (stable_uint 8).bind fun _ => .pure _

theorem stable_typeLiteral (literal : Bytes) : Stable (readTypeLiteral literal) :=
  (Stable.exactly _ _).bind fun _ => stable_u8.bind fun _ => .ite (.fail _) (.pure _)

theorem stable_metadata (literal : Bytes) : Stable (readMetadata literal) :=
  stable_u8.bind fun metadata => .ite (.fail _) <| (stable_declaredSize metadata).bind fun _ =>
    .ite ((stable_typeLiteral literal).bind fun _ => .pure _) (.pure _)

theorem stable_header (literal : Bytes) (hash : UInt32) : Stable (readHeader literal hash) :=
  (stable_uint 4).bind fun _ => .ite (.fail _) (.ite (stable_metadata literal) (.pure _))

/-! ### Whole messages -/

variable {t : Ty} {v u : t.Value} {payload bytes : Bytes}

/-- What a successful `deserialize` has read behind a header without a declared size. -/
theorem deserialize_of_header (hhdr : (readHeader t.literal (typeHash md5Hash32 t)).run input =
    .ok ((w, none), payload)) (h : deserializeWithLimit md5Hash32 order t limit input = .ok u) :
    (decodePayload order w limit t).run payload = .ok (u, []) := by
  rw [deserializeWithLimit, deserializeWithTypeHashAndLimit, hhdr] at h
  change bind ((decodePayload order w limit t).run payload) _ = _ at h
  cases hrun : (decodePayload order w limit t).run payload with
  | error err =>
    rw [hrun] at h
    cases h
  | ok result =>
    obtain ⟨_, remaining⟩ := result
    rw [hrun] at h
    cases remaining with
    | nil =>
      cases h
      rfl
    | cons byte rest => cases h

/-- A part from the front that deserializes is the whole message. -/
theorem eq_of_part (hpay : Reads (decodePayload order w limit t) payload v)
    (hpart : part ++ rest = header (typeHash md5Hash32 t) w ++ payload)
    (h : deserializeWithLimit md5Hash32 order t limit part = .ok u) : rest = [] := by
  have hwhole := reads_header t.literal (md5Hash32 t.literal) w payload
  rw [← typeHash] at hwhole
  cases hhdr : (readHeader t.literal (typeHash md5Hash32 t)).run part with
  | error err =>
    rw [deserializeWithLimit, deserializeWithTypeHashAndLimit, hhdr] at h
    cases h
  | ok result =>
    obtain ⟨⟨_, _⟩, _⟩ := result
    -- the header of the part is the header of the message
    have hlonger := stable_header _ _ _ _ _ rest hhdr
    rw [hpart, hwhole] at hlonger
    obtain ⟨hfst, hleft⟩ := Prod.mk.inj (ok.inj hlonger)
    cases hfst
    have hrun := stable_payload t _ _ _ rest (deserialize_of_header hhdr h)
    have hexact := hpay []
    rw [List.append_nil] at hexact
    rw [← hleft, hexact] at hrun
    exact (Prod.mk.inj (ok.inj hrun)).2.symm

/-- Nothing may stand behind the message. -/
theorem eq_of_longer (hpay : Reads (decodePayload order w limit t) payload v)
    (h : deserializeWithLimit md5Hash32 order t limit
    (header (typeHash md5Hash32 t) w ++ payload ++ rest) = .ok u) :
    rest = [] := by
  rw [List.append_assoc] at h
  have hrun := deserialize_of_header (reads_header t.literal (md5Hash32 t.literal) w _) h
  rw [hpay] at hrun
  exact (Prod.mk.inj (ok.inj hrun)).2

/-- **Self-delimitation.** Of a serialized value, no strict part from the front and no longer
message deserializes; in particular no serialized value is the beginning of another one. -/
theorem serialize_delimited (md5Hash32 : Bytes → UInt32) (order : KeyOrder) (t : Ty)
    (ht : t.Supported) (limit : ℕ) (husize : limit < 2 ^ 64) (v : t.Value) (hv : Ordered order t v)
    (hlimit : Within limit t v) (bytes : Bytes) (h : serialize md5Hash32 t v = .ok bytes) :
    (∀ part u, part <+: bytes → deserializeWithLimit md5Hash32 order t limit part = .ok u → part = bytes) ∧
      (∀ rest u, deserializeWithLimit md5Hash32 order t limit (bytes ++ rest) = .ok u → rest = []) ∧
      ∀ v' bytes', Ordered order t v' → Within limit t v' → serialize md5Hash32 t v' = .ok bytes' →
        bytes' <+: bytes → bytes' = bytes := by
  obtain ⟨w, payload, -, hserialize, hpayload⟩ := exists_payload ht hv husize hlimit
  cases h.symm.trans (hserialize _)
  have hpart : ∀ part u, part <+: header (typeHash md5Hash32 t) w ++ payload →
      deserializeWithLimit md5Hash32 order t limit part = .ok u →
      part = header (typeHash md5Hash32 t) w ++ payload := by
    rintro part u ⟨rest, hrest⟩ hu
    rw [← hrest, eq_of_part hpayload hrest hu, List.append_nil]
  refine ⟨hpart, fun rest u hu => eq_of_longer hpayload hu, ?_⟩
  intro v' bytes' hv' hlimit' h' hbefore
  obtain ⟨_, _, -, hserialize', hpayload'⟩ := exists_payload ht hv' husize hlimit'
  cases h'.symm.trans (hserialize' _)
  exact hpart _ v' hbefore (deserialize_eq _ hpayload')

theorem serialize_delimited_sample : ∃ bytes, serialize sampleDigest sampleTy sample = .ok bytes ∧
    (∀ part u, part <+: bytes →
      deserializeWithLimit sampleDigest boolOrder sampleTy 2 part = .ok u → part = bytes) ∧
    ∀ rest u, deserializeWithLimit sampleDigest boolOrder sampleTy 2 (bytes ++ rest) = .ok u →
      rest = [] := by
  have hdelimited := serialize_delimited sampleDigest boolOrder sampleTy
    ⟨⟨trivial, trivial⟩, trivial, trivial⟩ 2 (by decide) sample sample_ordered sample_within _ rfl
  exact ⟨_, rfl, hdelimited.1, hdelimited.2.1⟩

end Cakemaster.Rpc
