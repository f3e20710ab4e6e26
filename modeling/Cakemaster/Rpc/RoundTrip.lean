import Cakemaster.Rpc.StructPack

/-!
# Round trips

Every value comes back from its serialization. By recursion on the type, the decoder of a
payload reads exactly the bytes that the encoder has written, whatever follows, when the
lengths of the containers fit the width and the limit; the width that the whole value
chooses fits all of its containers.
-/

namespace Cakemaster.Rpc

open Wire List Nat Except

variable {order : KeyOrder} {w : LengthWidth} {limit bound : ℕ}
variable {length : ℕ} {t : Ty} {n : ℕ} {β : Type} {v : t.Value} {bytes : Bytes}

/-! ### Values in order -/

mutual

/-- Unions have fewer alternatives than a byte has values. -/
def Ty.Supported : Ty → Prop
  | .vec t | .array t _ | .option t | .set t => t.Supported
  | .result t e => t.Supported ∧ e.Supported
  | .map k v => k.Supported ∧ v.Supported
  | .product _ fields => AllSupported fields
  | .union _ alternatives => alternatives.length < 256 ∧ AllSupported alternatives
  | _ => True

def AllSupported : List Ty → Prop
  | [] => True
  | t :: ts => t.Supported ∧ AllSupported ts

end

abbrev Each {α : Type} (vs : List α) (p : α → Prop) : Prop :=
  ∀ v ∈ vs, p v

mutual

/-- The maps and sets in a value are in the order of their keys, as every `BTreeMap` and every
`BTreeSet` is. -/
def Ordered (order : KeyOrder) : (t : Ty) → t.Value → Prop
  | .vec t, vs => Each vs fun v => Ordered order t v
  | .array t _, vs => Each vs.1 fun v => Ordered order t v
  | .option t, v => Each (Option.toList v) fun v => Ordered order t v
  | .result t e, v => Sum.elim (fun v => Ordered order t v) (fun v => Ordered order e v) v
  | .map k v, entries =>
    List.Pairwise (fun a b => order.cmp k a.1 b.1 = .lt) entries ∧
      Each entries fun entry => Ordered order k entry.1 ∧ Ordered order v entry.2
  | .set t, vs =>
    List.Pairwise (fun a b => order.cmp t a b = .lt) vs ∧ Each vs fun v => Ordered order t v
  | .product _ fields, vs => AllOrdered order fields vs
  | .union _ alternatives, v => AlternativeOrdered order alternatives v
  | .scalar _, _ | .bool, _ | .char, _ | .unit, _ | .string, _ | .byteString, _ | .enum _, _ => True

def AllOrdered (order : KeyOrder) : (ts : List Ty) → Fields ts → Prop
  | [], _ => True
  | t :: ts, (v, vs) => Ordered order t v ∧ AllOrdered order ts vs

def AlternativeOrdered (order : KeyOrder) : (ts : List Ty) → Alternative ts → Prop
  | [], v => nomatch v
  | t :: _, .inl v => Ordered order t v
  | _ :: ts, .inr v => AlternativeOrdered order ts v

end

mutual

/-- Every string, sequence, map and set in a value has at most the given length. -/
def Within (limit : ℕ) : (t : Ty) → t.Value → Prop
  | .string, s => (utf8Bytes s).length ≤ limit
  | .byteString, bytes => List.length bytes ≤ limit
  | .vec t, vs => List.length vs ≤ limit ∧ Each vs fun v => Within limit t v
  | .array t _, vs => Each vs.1 fun v => Within limit t v
  | .option t, v => Each (Option.toList v) fun v => Within limit t v
  | .result t e, v => Sum.elim (fun v => Within limit t v) (fun v => Within limit e v) v
  | .map k v, entries =>
    List.length entries ≤ limit ∧ Each entries fun entry => Within limit k entry.1 ∧
      Within limit v entry.2
  | .set t, vs => List.length vs ≤ limit ∧ Each vs fun v => Within limit t v
  | .product _ fields, vs => AllWithin limit fields vs
  | .union _ alternatives, v => AlternativeWithin limit alternatives v
  | .scalar _, _ | .bool, _ | .char, _ | .unit, _ | .enum _, _ => True

def AllWithin (limit : ℕ) : (ts : List Ty) → Fields ts → Prop
  | [], _ => True
  | t :: ts, (v, vs) => Within limit t v ∧ AllWithin limit ts vs

def AlternativeWithin (limit : ℕ) : (ts : List Ty) → Alternative ts → Prop
  | [], v => nomatch v
  | t :: _, .inl v => Within limit t v
  | _ :: ts, .inr v => AlternativeWithin limit ts v

end

section Insert

variable {α : Type} {cmp : α → α → Ordering} {replace : α → α → α}

variable (hswap : ∀ a b, cmp b a = (cmp a b).swap)
include hswap

theorem insertEntry_last (h : ∀ old ∈ entries, cmp old entry = .lt) :
    insertEntry cmp replace entry entries = entries ++ [entry] := by
  induction entries with
  | nil => rfl
  | cons old rest ih =>
    have hgt : cmp entry old = .gt := by rw [hswap old entry, h old mem_cons_self]; rfl
    rw [insertEntry, hgt]
    dsimp only
    rw [ih fun old hold => h old (mem_cons_of_mem _ hold), cons_append]

/-- Entries that come in order are put one behind the other. -/
theorem foldl_insertEntry (before : List α)
    (h : (before ++ entries).Pairwise fun a b => cmp a b = .lt) :
    entries.foldl (fun entries entry => insertEntry cmp replace entry entries)
    before = before ++ entries := by
  induction entries generalizing before with
  | nil => simp
  | cons entry rest ih =>
    have hlast : insertEntry cmp replace entry before = before ++ [entry] :=
      insertEntry_last hswap fun old hold => (pairwise_append.mp h).2.2 old hold entry mem_cons_self
    rw [foldl_cons, hlast, ih _ (by simpa using h), append_assoc, singleton_append]

end Insert

/-! ### Lengths -/

theorem maximum_le_iff :
    maximum length lengths ≤ bound ↔ length ≤ bound ∧ ∀ n ∈ lengths, n ≤ bound := by
  induction lengths generalizing length with
  | nil => simp [maximum]
  | cons n lengths ih =>
    rw [maximum, foldl_cons, ← maximum, ih, max_le_iff, forall_mem_cons, and_assoc]

theorem maximum_map_le_iff {α : Type} {vs : List α} {size : α → ℕ} {p : α → Prop}
    (h : ∀ v ∈ vs, size v ≤ bound ↔ p v) :
    maximum length (vs.map size) ≤ bound ↔ length ≤ bound ∧ Each vs p := by
  rw [maximum_le_iff, forall_mem_map]
  exact and_congr_right fun _ => forall₂_congr h

mutual

/-- The longest container decides whether all of them are within a bound. -/
theorem maxContainerLen_le_iff :
    (t : Ty) → (v : t.Value) → (maxContainerLen t v ≤ bound ↔ Within bound t v)
  | .scalar _, _ | .bool, _ | .char, _ | .unit, _ | .enum _, _ => iff_of_true (zero_le _) trivial
  | .string, _ | .byteString, _ => Iff.rfl
  | .vec t, _ | .set t, _ => maximum_map_le_iff fun v _ => maxContainerLen_le_iff t v
  | .array t _, _ =>
    (maximum_map_le_iff fun v _ => maxContainerLen_le_iff t v).trans (and_iff_right (zero_le _))
  | .option t, v =>
    match (v : Option t.Value) with
    | none => iff_of_true (zero_le _) nofun
    | some v => (maxContainerLen_le_iff t v).trans forall_mem_singleton.symm
  | .result t e, v =>
    match (v : t.Value ⊕ e.Value) with
    | .inl v => maxContainerLen_le_iff t v
    | .inr v => maxContainerLen_le_iff e v
  | .map k v, _ => maximum_map_le_iff fun entry _ =>
    max_le_iff.trans (and_congr (maxContainerLen_le_iff k entry.1) (maxContainerLen_le_iff v entry.2))
  | .product _ fields, vs => maxFieldsLen_le_iff fields vs
  | .union _ alternatives, v => maxAlternativeLen_le_iff alternatives v

theorem maxFieldsLen_le_iff :
    (ts : List Ty) → (vs : Fields ts) → (maxFieldsLen ts vs ≤ bound ↔ AllWithin bound ts vs)
  | [], _ => iff_of_true (zero_le _) trivial
  | t :: ts, (v, vs) =>
    max_le_iff.trans (and_congr (maxContainerLen_le_iff t v) (maxFieldsLen_le_iff ts vs))

theorem maxAlternativeLen_le_iff :
    (ts : List Ty) → (v : Alternative ts) →
      (maxAlternativeLen ts v ≤ bound ↔ AlternativeWithin bound ts v)
  | [], v => nomatch v
  | t :: _, .inl v => maxContainerLen_le_iff t v
  | _ :: ts, .inr v => maxAlternativeLen_le_iff ts v

end

theorem lt_pow_forLength (h : length < 2 ^ 64) :
    length < 256 ^ (LengthWidth.forLength length).bytes := by
  unfold LengthWidth.forLength
  split
  · assumption
  · split
    · assumption
    · split
      · assumption
      · exact h

/-! ### Parts of a payload -/

theorem reads_uint (h : x < 256 ^ width) : Reads (readUint width) (littleEndian width x) x := by
  refine (Reads.exactly (length_littleEndian _ _)).map ?_
  rw [ofLittleEndian_littleEndian h]
  exact .pure x

theorem reads_u8 (x : UInt8) : Reads readU8 [x] x := by
  have hread : Reads (readUint 1) (littleEndian 1 x.toNat) x.toNat := reads_uint x.toNat_lt
  have hbyt : littleEndian 1 x.toNat = [x] := by simp [littleEndian]
  rw [hbyt] at hread
  refine hread.map ?_
  rw [UInt8.ofNat_toNat]
  exact .pure x

theorem reads_u8_bind {α : Type} {f : UInt8 → PayloadDecoder α} {a : α}
    (h : Reads (f x) bytes a) : Reads (readU8 >>= f) (x :: bytes) a :=
  (reads_u8 x).bind h

theorem reads_len (hlim : bound ≤ limit) (hwid : bound < 256 ^ w.bytes) (h : n ≤ bound) :
    ∃ bytes, writeLen w n = .ok bytes ∧ Reads (readLen w limit) bytes n := by
  refine ⟨_, if_pos (lt_of_le_of_lt h hwid), (reads_uint (lt_of_le_of_lt h hwid)).map ?_⟩
  rw [if_neg (not_lt.mpr (h.trans hlim))]
  exact .pure n

theorem reads_each {α : Type} {encode : α → Except StructPackError Bytes} {d : PayloadDecoder α}
    {vs : List α} (h : ∀ v ∈ vs, ∃ bytes, encode v = .ok bytes ∧ Reads d bytes v) :
    ∃ parts, vs.mapM encode = .ok parts ∧ Reads (d.replicate vs.length) parts.flatten vs := by
  have hpts : ∃ parts, vs.mapM encode = .ok parts ∧ List.Forall₂ (Reads d) parts vs := by
    induction vs with
    | nil => exact ⟨[], rfl, .nil⟩
    | cons v vs ih =>
      obtain ⟨bytes, henc, hrds⟩ := h v mem_cons_self
      obtain ⟨parts, hpts, hall⟩ := ih fun v hv => h v (mem_cons_of_mem _ hv)
      refine ⟨bytes :: parts, ?_, .cons hrds hall⟩
      rw [mapM_cons, henc, hpts]
      rfl
  obtain ⟨parts, henc, hall⟩ := hpts
  exact ⟨parts, henc, .replicate hall⟩

theorem reads_char (c : Char) : Reads (readUint 4 >>= decodeChar) (littleEndian 4 c.toNat) c := by
  have hlt : c.toNat < 256 ^ 4 := c.val.toNat_lt
  refine (reads_uint hlt).map ?_
  have hvld : c.toNat.isValidChar := c.valid
  rw [decodeChar, if_pos hvld, Char.ofNat_toNat]
  exact .pure c

theorem reads_utf8 (s : String) : Reads (decodeUtf8 (utf8Bytes s)) [] s := by
  have hutf8 : String.fromUTF8? ⟨(utf8Bytes s).toArray⟩ = some s := by
    have hvld : (⟨(utf8Bytes s).toArray⟩ : ByteArray).IsValidUTF8 := s.isValidUTF8
    rw [String.fromUTF8?, dif_pos hvld]
    rfl
  rw [decodeUtf8, hutf8]
  exact .pure s

theorem EnumRepr.value_bits {repr : EnumRepr} {value : ℤ} (h : repr.Fits value) :
    repr.value (repr.bits value) = value := by
  cases repr with
  | i32 =>
    obtain ⟨hlow, hhigh⟩ := h
    show (BitVec.ofInt 32 value).toInt = value
    rw [BitVec.toInt_ofInt]
    exact Int.bmod_eq_of_le hlow hhigh
  | u8 =>
    obtain ⟨hlow, hhigh⟩ := h
    show ((BitVec.ofInt 8 value).toNat : ℤ) = value
    rw [BitVec.toNat_ofInt]
    omega

theorem toNat_lt_pow (s : Scalar) (v : BitVec (8 * s.width)) : v.toNat < 256 ^ s.width := by
  have hpow : (256 : ℕ) ^ s.width = 2 ^ (8 * s.width) := by rw [pow_mul]; norm_num
  rw [hpow]
  exact v.isLt

theorem reads_enum (e : EnumType) (v : { value : ℤ // value ∈ e.values }) :
    Reads (decodePayload order w limit (.enum e))
      (littleEndian e.repr.scalar.width (e.repr.bits v.1).toNat) v := by
  rw [decodePayload]
  refine (reads_uint (toNat_lt_pow _ _)).map ?_
  rw [BitVec.ofNat_toNat, BitVec.setWidth_eq, EnumRepr.value_bits (e.fits v.1 v.2),
    decodeDiscriminant, dif_pos v.2]
  exact .pure v

theorem reads_sequence {α : Type} {encode : α → Except StructPackError Bytes} {d : PayloadDecoder α}
    {vs : List α} (hlim : bound ≤ limit) (hwid : bound < 256 ^ w.bytes) (hlth : vs.length ≤ bound)
    (h : ∀ v ∈ vs, ∃ bytes, encode v = .ok bytes ∧ Reads d bytes v) :
    ∃ bytes, (do return (← writeLen w vs.length) ++ (← vs.mapM encode).flatten) = ok bytes ∧
      Reads (readLen w limit >>= d.replicate) bytes vs := by
  obtain ⟨length, hlen, hreadLen⟩ := reads_len hlim hwid hlth
  obtain ⟨parts, hpts, hreadParts⟩ := reads_each h
  refine ⟨length ++ parts.flatten, ?_, hreadLen.bind hreadParts⟩
  rw [hlen, hpts]
  rfl

theorem reads_tagged {α : Type} {f : UInt8 → PayloadDecoder β} {d : PayloadDecoder α}
    {inject : α → β} {encoded : Except StructPackError Bytes} {v : α}
    (htag : f tag = (do return inject (← d))) (h : ∃ bytes, encoded = .ok bytes ∧ Reads d bytes v) :
    ∃ bytes, (do return tag :: (← encoded)) = ok bytes ∧ Reads (readU8 >>= f) bytes (inject v) := by
  obtain ⟨bytes, henc, hrds⟩ := h
  refine ⟨tag :: bytes, ?_, ?_⟩
  · rw [henc]
    rfl
  · refine reads_u8_bind ?_
    rw [htag]
    exact hrds.map (.pure _)

theorem reads_scalar (s : Scalar) (v : BitVec (8 * s.width)) :
    Reads (decodePayload order w limit (.scalar s)) (littleEndian s.width v.toNat) v := by
  rw [decodePayload]
  refine (reads_uint (toNat_lt_pow s v)).map ?_
  rw [BitVec.ofNat_toNat, BitVec.setWidth_eq]
  exact .pure v

theorem reads_array (hn : vs.length = n)
    (h : Reads ((decodePayload order w limit t).replicate n) bytes vs) :
    Reads (decodePayload order w limit (.array t n)) bytes ⟨vs, hn⟩ := by
  have hfits : Reads (if h : vs.length = n then
    (Pure.pure ⟨vs, h⟩ : PayloadDecoder { l : List t.Value // l.length = n })
      else Decoder.fail .lengthOverflow) [] ⟨vs, hn⟩ := by
    rw [dif_pos hn]
    exact .pure _
  rw [decodePayload]
  exact h.map hfits

theorem reads_pair {α : Type} {encodeKey encodeValue : Except StructPackError Bytes}
    {d : PayloadDecoder α} {d' : PayloadDecoder β} {key : α} {value : β}
    (hkey : ∃ bytes, encodeKey = .ok bytes ∧ Reads d bytes key)
    (hval : ∃ bytes, encodeValue = .ok bytes ∧ Reads d' bytes value) :
    ∃ bytes, (do return (← encodeKey) ++ (← encodeValue)) = ok bytes ∧
      Reads (do let key ← d; let value ← d'; return (key, value)) bytes (key, value) := by
  obtain ⟨keyBytes, hencodeKey, hreadKey⟩ := hkey
  obtain ⟨valueBytes, hencodeValue, hreadValue⟩ := hval
  refine ⟨keyBytes ++ valueBytes, ?_, hreadKey.bind (hreadValue.map (.pure _))⟩
  rw [hencodeKey, hencodeValue]
  rfl

/-- Elements that are collected after they were read. -/
theorem reads_collected {α : Type} {d : PayloadDecoder α} {vs : List α} {collect : List α → β}
    {v : β} (h : Reads (readLen w limit >>= d.replicate) bytes vs) (hcollect : collect vs = v) :
    Reads (do let length ← readLen w limit; let vs ← d.replicate length; return collect vs)
    bytes v := by
  have hmap : Reads ((readLen w limit >>= d.replicate) >>= fun vs => Pure.pure (collect vs)) bytes v := by
    refine h.map ?_
    rw [hcollect]
    exact .pure v
  rwa [bind_assoc] at hmap

/-! ### Payloads -/

mutual

/-- The bytes of a value are read back as this value, and no others are taken. -/
theorem reads_payload (hlim : bound ≤ limit) (hwid : bound < 256 ^ w.bytes) :
    (t : Ty) → t.Supported → (v : t.Value) → Ordered order t v → maxContainerLen t v ≤ bound →
    ∃ bytes, encodePayload w t v = .ok bytes ∧ Reads (decodePayload order w limit t) bytes v
  | .scalar s, _, v, _, _ => ⟨_, rfl, reads_scalar s v⟩
  | .bool, _, b, _, _ => by
    refine ⟨_, rfl, (reads_u8 _).map ?_⟩
    cases b with
    | false => exact .pure false
    | true => exact .pure true
  | .char, _, c, _, _ => ⟨_, rfl, reads_char c⟩
  | .unit, _, _, _, _ => ⟨[], rfl, .pure ()⟩
  | .string, _, s, _, hmax => by
    obtain ⟨length, hlen, hread⟩ := reads_len (n := (utf8Bytes s).length) hlim hwid hmax
    refine ⟨length ++ utf8Bytes s, ?_, hread.bind ((Reads.exactly rfl).map (reads_utf8 s))⟩
    rw [encodePayload, hlen]
    rfl
  | .byteString, _, v, _, hmax => by
    obtain ⟨length, hlen, hread⟩ := reads_len (n := List.length v) hlim hwid hmax
    refine ⟨List.append length v, ?_, hread.bind (Reads.exactly rfl)⟩
    rw [encodePayload, hlen]
    rfl
  | .vec t, ht, vs, hordered, hmax => by
    obtain ⟨hlth, heach⟩ := maximum_le_iff.mp hmax
    exact reads_sequence hlim hwid hlth fun v hv =>
      reads_payload hlim hwid t ht v (hordered v hv) (heach _ (mem_map_of_mem hv))
  | .array t n, ht, ⟨vs, hn⟩, hordered, hmax => by
    obtain ⟨-, heach⟩ := maximum_le_iff.mp hmax
    obtain ⟨parts, hpts, hrds⟩ := reads_each fun v hv =>
      reads_payload hlim hwid t ht v (hordered v hv) (heach _ (mem_map_of_mem hv))
    refine ⟨parts.flatten, ?_, reads_array hn (hn ▸ hrds)⟩
    show (vs.mapM _ >>= _) = _
    rw [hpts]
    rfl
  | .option t, ht, v, hordered, hmax =>
    match (v : Option t.Value), hordered, hmax with
    | none, _, _ => ⟨[0], rfl, (reads_u8 0).map (.pure none)⟩
    | some v, hordered, hmax =>
      reads_tagged rfl (reads_payload hlim hwid t ht v (hordered v mem_cons_self) hmax)
  | .result t e, ⟨ht, he⟩, v, hordered, hmax =>
    match (v : t.Value ⊕ e.Value), hordered, hmax with
    | .inl v, hordered, hmax => reads_tagged rfl (reads_payload hlim hwid t ht v hordered hmax)
    | .inr v, hordered, hmax => reads_tagged rfl (reads_payload hlim hwid e he v hordered hmax)
  | .map k v, ⟨hk, hv⟩, entries, ⟨hsrt, hordered⟩, hmax => by
    obtain ⟨hlth, heach⟩ := maximum_le_iff.mp hmax
    obtain ⟨bytes, henc, hrds⟩ := reads_sequence hlim hwid hlth fun entry hent =>
      have hle := max_le_iff.mp (heach _ (mem_map_of_mem hent))
      reads_pair (reads_payload hlim hwid k hk entry.1 (hordered entry hent).1 hle.1)
        (reads_payload hlim hwid v hv entry.2 (hordered entry hent).2 hle.2)
    exact ⟨bytes, henc, reads_collected hrds (foldl_insertEntry (fun a b => order.swap k a.1 b.1) [] hsrt)⟩
  | .set t, ht, vs, ⟨hsrt, hordered⟩, hmax => by
    obtain ⟨hlth, heach⟩ := maximum_le_iff.mp hmax
    obtain ⟨bytes, henc, hrds⟩ := reads_sequence hlim hwid hlth fun v hv =>
      reads_payload hlim hwid t ht v (hordered v hv) (heach _ (mem_map_of_mem hv))
    exact ⟨bytes, henc, reads_collected hrds (foldl_insertEntry (order.swap t) [] hsrt)⟩
  | .product _ fields, hflds, vs, hordered, hmax =>
    reads_fields hlim hwid fields hflds vs hordered hmax
  | .enum e, _, v, _, _ => ⟨_, rfl, reads_enum e v⟩
  | .union name alternatives, ⟨hcnt, halts⟩, v, hordered, hmax => by
    obtain ⟨position, bytes, hposition, henc, hrds⟩ :=
      reads_alternative hlim hwid alternatives halts v hordered hmax 0
    have hindex : (UInt8.ofNat position).toNat = position :=
      UInt8.toNat_ofNat_of_lt (hposition.trans hcnt)
    rw [zero_add] at henc
    refine ⟨UInt8.ofNat position :: bytes, henc, reads_u8_bind ?_⟩
    rw [hindex]
    exact hrds _

theorem reads_fields (hlim : bound ≤ limit) (hwid : bound < 256 ^ w.bytes) :
    (ts : List Ty) → AllSupported ts → (vs : Fields ts) → AllOrdered order ts vs →
      maxFieldsLen ts vs ≤ bound →
    ∃ bytes, encodeFields w ts vs = .ok bytes ∧ Reads (decodeFields order w limit ts) bytes vs
  | [], _, _, _, _ => ⟨[], rfl, .pure ()⟩
  | t :: ts, ⟨ht, hts⟩, (v, vs), ⟨hv, hvs⟩, hmax => by
    obtain ⟨hvmax, hvsmax⟩ := max_le_iff.mp hmax
    obtain ⟨field, hencodeField, hreadField⟩ := reads_payload hlim hwid t ht v hv hvmax
    obtain ⟨rest, hencodeRest, hreadRest⟩ := reads_fields hlim hwid ts hts vs hvs hvsmax
    refine ⟨field ++ rest, ?_, hreadField.bind (hreadRest.map (.pure _))⟩
    rw [encodeFields, hencodeField, hencodeRest]
    rfl

/-- The alternative at a position is written with the index that the position has. -/
theorem reads_alternative (hlim : bound ≤ limit) (hwid : bound < 256 ^ w.bytes) :
    (ts : List Ty) → AllSupported ts → (v : Alternative ts) → AlternativeOrdered order ts v →
    maxAlternativeLen ts v ≤ bound → (index : ℕ) →
    ∃ position bytes, position < ts.length ∧
      encodeAlternative w ts index v = .ok (UInt8.ofNat (index + position) :: bytes) ∧
      ∀ unknown, Reads (decodeAlternative order w limit unknown ts position) bytes v
  | [], _, v, _, _, _ => nomatch v
  | t :: ts, ⟨ht, _⟩, .inl v, hordered, hmax, index => by
    obtain ⟨bytes, henc, hrds⟩ := reads_payload hlim hwid t ht v hordered hmax
    refine ⟨0, bytes, succ_pos _, ?_, fun unknown => hrds.map (.pure _)⟩
    rw [encodeAlternative, henc]
    rfl
  | t :: ts, ⟨_, hts⟩, .inr v, hordered, hmax, index => by
    obtain ⟨position, bytes, hposition, henc, hrds⟩ :=
      reads_alternative hlim hwid ts hts v hordered hmax (index + 1)
    refine ⟨position + 1, bytes, succ_lt_succ hposition, ?_, fun unknown => (hrds unknown).map (.pure _)⟩
    rw [encodeAlternative, henc, add_assoc, add_comm 1]

end

/-! ### What could be encoded -/

theorem exists_of_bind_eq_ok {α : Type} {x : Except StructPackError α}
    {f : α → Except StructPackError β} (h : x >>= f = .ok b) : ∃ a, x = .ok a ∧ f a = .ok b := by
  cases x with
  | error err => cases h
  | ok a => exact ⟨a, rfl, h⟩

theorem le_of_writeLen (h : writeLen w n = .ok bytes) : n ≤ 256 ^ w.bytes - 1 := by
  unfold writeLen at h
  split at h
  next hlt => exact le_pred_of_lt hlt
  next => cases h

theorem each_of_mapM {α : Type} {encode : α → Except StructPackError Bytes} {p : α → Prop}
    {vs : List α} (hp : ∀ v bytes, encode v = .ok bytes → p v) (h : vs.mapM encode = .ok parts) :
    Each vs p := by
  induction vs generalizing parts with
  | nil => nofun
  | cons v vs ih =>
    rw [mapM_cons] at h
    obtain ⟨bytes, hv, hrest⟩ := exists_of_bind_eq_ok h
    obtain ⟨_, hvs, -⟩ := exists_of_bind_eq_ok hrest
    exact forall_mem_cons.mpr ⟨hp v bytes hv, ih hvs⟩

theorem within_sequence {α : Type} {encode : α → Except StructPackError Bytes} {p : α → Prop}
    {vs : List α} (hp : ∀ v bytes, encode v = .ok bytes → p v)
    (h : (do return (← writeLen w vs.length) ++ (← vs.mapM encode).flatten) = ok bytes) :
    vs.length ≤ 256 ^ w.bytes - 1 ∧ Each vs p := by
  obtain ⟨length, hlen, hrest⟩ := exists_of_bind_eq_ok h
  obtain ⟨_, hpts, -⟩ := exists_of_bind_eq_ok hrest
  exact ⟨le_of_writeLen hlen, each_of_mapM hp hpts⟩

mutual

/-- The width was large enough for a value that was encoded. -/
theorem within_of_encode : (t : Ty) → (v : t.Value) → (bytes : Bytes) →
    encodePayload w t v = .ok bytes → Within (256 ^ w.bytes - 1) t v
  | .scalar _, _, _, _ | .bool, _, _, _ | .char, _, _, _ | .unit, _, _, _
  | .enum _, _, _, _ => trivial
  | .string, s, _, h => by
    obtain ⟨length, hlen, -⟩ := exists_of_bind_eq_ok h
    exact le_of_writeLen hlen
  | .byteString, bytes, _, h => by
    obtain ⟨length, hlen, -⟩ := exists_of_bind_eq_ok h
    exact le_of_writeLen hlen
  | .vec t, _, _, h | .set t, _, _, h => within_sequence (within_of_encode t) h
  | .array t _, vs, _, h => by
    obtain ⟨_, hpts, -⟩ := exists_of_bind_eq_ok h
    exact each_of_mapM (within_of_encode t) hpts
  | .option t, v, _, h =>
    match (v : Option t.Value), h with
    | none, _ => nofun
    | some v, h => by
      obtain ⟨bytes, hv, -⟩ := exists_of_bind_eq_ok h
      exact forall_mem_singleton.mpr (within_of_encode t v bytes hv)
  | .result t e, v, _, h =>
    match (v : t.Value ⊕ e.Value), h with
    | .inl v, h => by
      obtain ⟨bytes, hv, -⟩ := exists_of_bind_eq_ok h
      exact within_of_encode t v bytes hv
    | .inr v, h => by
      obtain ⟨bytes, hv, -⟩ := exists_of_bind_eq_ok h
      exact within_of_encode e v bytes hv
  | .map k v, entries, _, h => by
    refine within_sequence (fun entry bytes hent => ?_) h
    obtain ⟨key, hkey, hrest⟩ := exists_of_bind_eq_ok hent
    obtain ⟨value, hval, -⟩ := exists_of_bind_eq_ok hrest
    exact ⟨within_of_encode k entry.1 key hkey, within_of_encode v entry.2 value hval⟩
  | .product _ fields, vs, bytes, h => within_of_encodeFields fields vs bytes h
  | .union _ alternatives, v, bytes, h => within_of_encodeAlternative alternatives v 0 bytes h

theorem within_of_encodeFields : (ts : List Ty) → (vs : Fields ts) → (bytes : Bytes) →
    encodeFields w ts vs = .ok bytes → AllWithin (256 ^ w.bytes - 1) ts vs
  | [], _, _, _ => trivial
  | t :: ts, (v, vs), _, h => by
    obtain ⟨field, hfield, hrest⟩ := exists_of_bind_eq_ok h
    obtain ⟨rest, hvs, -⟩ := exists_of_bind_eq_ok hrest
    exact ⟨within_of_encode t v field hfield, within_of_encodeFields ts vs rest hvs⟩

theorem within_of_encodeAlternative :
    (ts : List Ty) → (v : Alternative ts) → (index : ℕ) → (bytes : Bytes) →
    encodeAlternative w ts index v = .ok bytes → AlternativeWithin (256 ^ w.bytes - 1) ts v
  | [], v, _, _, _ => nomatch v
  | t :: _, .inl v, _, _, h => by
    obtain ⟨bytes, hv, -⟩ := exists_of_bind_eq_ok h
    exact within_of_encode t v bytes hv
  | _ :: ts, .inr v, index, bytes, h => within_of_encodeAlternative ts v (index + 1) bytes h

end

/-- A payload that was encoded is read back under every limit that admits the value. -/
theorem reads_encoded (ht : t.Supported) (hv : Ordered order t v) (hlim : Within limit t v)
    (h : encodePayload w t v = .ok bytes) : Reads (decodePayload order w limit t) bytes v := by
  have hwid : maxContainerLen t v < 256 ^ w.bytes :=
    Nat.lt_of_le_pred (Nat.pow_pos (by decide))
      ((maxContainerLen_le_iff t v).mpr (within_of_encode t v bytes h))
  obtain ⟨_, h', hrds⟩ :=
    reads_payload ((maxContainerLen_le_iff t v).mpr hlim) hwid t ht v hv le_rfl
  rw [ok.inj (h.symm.trans h')]
  exact hrds

/-! ### Whole messages -/

/-- The bytes in front of a payload. -/
def header (hash : UInt32) (w : LengthWidth) : Bytes :=
  littleEndian 4 (if w ≠ .one then hash ||| 1 else hash).toNat ++ if w ≠ .one then
    [w.tag <<< 3] else []

theorem serialize_eq (hash : UInt32)
    (h : encodePayload (LengthWidth.forLength (maxContainerLen t v)) t v = .ok payload) :
    serializeWithTypeHash t v hash = .ok
    (header hash (LengthWidth.forLength (maxContainerLen t v)) ++ payload) := by
  rw [serializeWithTypeHash, h]
  rfl

theorem hash_without_flag (h : UInt32) : (h &&& 0xfffffffe) &&& 0xfffffffe = h &&& 0xfffffffe := by
  rw [UInt32.and_assoc]
  rfl

theorem flag_of_hash (h : UInt32) : (h &&& 0xfffffffe) &&& 1 = 0 := by
  rw [UInt32.and_assoc]
  exact UInt32.and_zero

theorem hash_with_flag (h : UInt32) :
    ((h &&& 0xfffffffe) ||| 1) &&& 0xfffffffe = h &&& 0xfffffffe := by
  apply UInt32.toBitVec_inj.mp
  rw [UInt32.toBitVec_and, UInt32.toBitVec_or, UInt32.toBitVec_and]
  ext i hi
  simp only [BitVec.getElem_and, BitVec.getElem_or, UInt32.toBitVec_ofNat, BitVec.getElem_one]
  grind

theorem flag_with_flag (h : UInt32) : ((h &&& 0xfffffffe) ||| 1) &&& 1 ≠ 0 := by
  intro hzero
  have hbit := congrArg (fun x : UInt32 => x.toBitVec.getLsbD 0) hzero
  simp at hbit

theorem reads_metadata (literal : Bytes) :
    Reads (readMetadata literal) [w.tag <<< 3] (w, none) := by
  refine (reads_u8 _).map ?_
  cases w <;> exact .pure _

theorem reads_hash (x : UInt32) :
    Reads (readUint 4) (littleEndian 4 x.toNat) x.toNat := reads_uint x.toNat_lt

theorem reads_header (literal : Bytes) (h : UInt32) (w : LengthWidth) :
    Reads (readHeader literal (h &&& 0xfffffffe)) (header (h &&& 0xfffffffe) w) (w, none) := by
  by_cases hw : w = .one
  · subst hw
    refine (reads_hash _).bind ?_
    rw [if_neg (not_not.mpr rfl), if_neg (not_not.mpr rfl), UInt32.ofNat_toNat,
      if_neg (not_not.mpr (hash_without_flag h)), if_neg (not_not.mpr (flag_of_hash h))]
    exact .pure _
  · refine (reads_hash _).bind ?_
    rw [if_pos hw, if_pos hw, UInt32.ofNat_toNat, if_neg (not_not.mpr (hash_with_flag h)),
      if_pos (flag_with_flag h)]
    exact reads_metadata literal

theorem deserialize_eq (hash : UInt32) (h : Reads (decodePayload order w limit t) payload v) :
    deserializeWithTypeHashAndLimit order t (hash &&& 0xfffffffe) limit
      (header (hash &&& 0xfffffffe) w ++ payload) = .ok v := by
  have hpay := h []
  rw [append_nil] at hpay
  rw [deserializeWithTypeHashAndLimit, reads_header t.literal hash w payload]
  change bind ((decodePayload order w limit t).run payload) _ = _
  rw [hpay]
  rfl

theorem exists_payload (ht : t.Supported) (hv : Ordered order t v) (husize : limit < 2 ^ 64)
    (hlim : Within limit t v) :
    ∃ w payload, encodePayload w t v = .ok payload ∧
      (∀ hash, serializeWithTypeHash t v hash = .ok (header hash w ++ payload)) ∧
      Reads (decodePayload order w limit t) payload v := by
  have hmax : maxContainerLen t v ≤ limit := (maxContainerLen_le_iff t v).mpr hlim
  have hwid := lt_pow_forLength (lt_of_le_of_lt hmax husize)
  obtain ⟨payload, henc, hrds⟩ := reads_payload hmax hwid t ht v hv le_rfl
  exact ⟨_, payload, henc, fun hash => serialize_eq hash henc, hrds⟩

/-- **Round trip.** -/
theorem serialize_round_trip (md5Hash32 : Bytes → UInt32) (order : KeyOrder) (t : Ty)
    (ht : t.Supported) (v : t.Value) (hv : Ordered order t v) (limit : ℕ) (husize : limit < 2 ^ 64)
    (hlimit : Within limit t v) :
    (∃ bytes, serialize md5Hash32 t v = .ok bytes ∧
    deserializeWithLimit md5Hash32 order t limit bytes = .ok v) ∧
      ∀ w : LengthWidth, Within (256 ^ w.bytes - 1) t v →
      ∃ payload, encodePayload w t v = .ok payload ∧
          ∀ rest, (decodePayload order w limit t).run (payload ++ rest) = .ok (v, rest) := by
  obtain ⟨_, _, -, hserialize, hreads⟩ := exists_payload ht hv husize hlimit
  refine ⟨⟨_, hserialize _, deserialize_eq _ hreads⟩, fun w hwide => ?_⟩
  have hwidth : maxContainerLen t v < 256 ^ w.bytes :=
    Nat.lt_of_le_pred (Nat.pow_pos (by decide)) ((maxContainerLen_le_iff t v).mpr hwide)
  exact reads_payload ((maxContainerLen_le_iff t v).mpr hlimit) hwidth t ht v hv le_rfl

/-- The order of `bool`, the only type of keys here. -/
def boolOrder : KeyOrder where
  cmp
    | .bool, a, b => compare (show Bool from a) b
    | _, _, _ => .eq
  swap t a b := by
    cases t with
    | bool => cases a <;> cases b <;> rfl
    | _ => rfl

def sampleDigest (literal : Bytes) : UInt32 :=
  literal.foldl (fun hash byte => 31 * hash + byte.toUInt32) 7

def sampleTy : Ty := .product .tuple [.map .bool (.vec .bool), .option .bool]

def sample : sampleTy.Value := ([(false, [true]), (true, [false, true])], some true, ())

theorem sample_ordered : Ordered boolOrder sampleTy sample := by
  have hkeys : compare false true = .lt := rfl
  simp [sample, sampleTy, Ordered, AllOrdered, Each, boolOrder, hkeys]

theorem sample_within : Within 2 sampleTy sample := by
  simp only [sample, sampleTy, Within, AllWithin, Each, forall_mem_cons, and_true, implies_true]
  exact ⟨by decide, by decide⟩

theorem serialize_round_trip_sample : ∃ bytes, serialize sampleDigest sampleTy sample = .ok bytes ∧
    deserializeWithLimit sampleDigest boolOrder sampleTy 2 bytes = .ok sample :=
  (serialize_round_trip sampleDigest boolOrder sampleTy ⟨⟨trivial, trivial⟩, trivial, trivial⟩
    sample sample_ordered 2 (by decide) sample_within).1

end Cakemaster.Rpc
