import Cakemaster.Rpc.RoundTrip

/-!
# Type literals

A type literal is a word of a grammar with one tag for each kind of type, a base-127 number
behind an array and an end mark behind a list of types. A reader of this grammar gives every literal
back as a `Shape`, so no literal begins another one. The shape is what the payload depends on:
the decoder of a type follows a decoder of its shape alone, and refuses more only for
the text of a string or for the value of an enum.
-/

namespace Cakemaster.Rpc

open Wire Nat Decoder List

/-! ### First bytes -/

/-- The kinds of types that a first byte tells apart. -/
inductive Head
  | scalar (s : Scalar)
  | bool | char | unit | text | vec | array | option | result | map | set | product | union
deriving DecidableEq

def Head.all : List Head :=
  [.scalar .i8, .scalar .u8, .scalar .i16, .scalar .u16, .scalar .i32, .scalar .u32, .scalar .i64,
    .scalar .u64, .scalar .f32, .scalar .f64, .bool, .char, .unit, .text, .vec, .array, .option,
    .result, .map, .set, .product, .union]

def Head.tag : Head → UInt8
  | .scalar s => s.tag
  | .bool => typeBool
  | .char => typeChar32
  | .unit => typeMonostate
  | .text => typeString
  | .vec => typeContainer
  | .array => typeArray
  | .option => typeOptional
  | .result => typeExpected
  | .map => typeMap
  | .set => typeSet
  | .product => typeStruct
  | .union => typeVariant

theorem Head.tag_ne : (head : Head) → head.tag ≠ typeEnd ∧ head.tag ≠ 137
  | .scalar s => by cases s <;> decide
  | .bool | .char | .unit | .text | .vec | .array | .option | .result | .map | .set | .product
  | .union => by decide

def Head.ofTag (tag : UInt8) : Option Head := Head.all.find? fun head => head.tag = tag

theorem Head.ofTag_tag : (head : Head) → Head.ofTag head.tag = some head
  | .scalar s => by cases s <;> rfl
  | .bool | .char | .unit | .text | .vec | .array | .option | .result | .map | .set | .product
  | .union => rfl

/-! ### Shapes -/

inductive Shape
  | scalar (s : Scalar)
  | bool
  | char
  | unit
  | text
  | vec (s : Shape)
  | array (s : Shape) (n : ℕ)
  | option (s : Shape)
  | result (s e : Shape)
  | map (k v : Shape)
  | set (s : Shape)
  | product (pair : Bool) (fields : List Shape)
  | union (alternatives : List Shape)

/-- Whether the literal says that a product has the layout of a C++ pair. -/
def ProductKind.isPair : ProductKind → Bool
  | .tuple | .reflected => false
  | .cppU64Pair => true

mutual

def Ty.shape : Ty → Shape
  | .scalar s => .scalar s
  | .bool => .bool
  | .char => .char
  | .unit => .unit
  | .string | .byteString => .text
  | .vec t => .vec t.shape
  | .array t n => .array t.shape n
  | .option t => .option t.shape
  | .result t e => .result t.shape e.shape
  | .map k v => .map k.shape v.shape
  | .set t => .set t.shape
  | .product kind fields => .product kind.isPair (shapes fields)
  | .enum e => .scalar e.repr.scalar
  | .union _ alternatives => .union (shapes alternatives)

def shapes : List Ty → List Shape
  | [] => []
  | t :: ts => t.shape :: shapes ts

end

def Shape.head : Shape → Head
  | .scalar s => .scalar s
  | .bool => .bool
  | .char => .char
  | .unit => .unit
  | .text => .text
  | .vec _ => .vec
  | .array _ _ => .array
  | .option _ => .option
  | .result _ _ => .result
  | .map _ _ => .map
  | .set _ => .set
  | .product _ _ => .product
  | .union _ => .union

def Shape.tag (s : Shape) : UInt8 := s.head.tag

mutual

def Shape.body : Shape → Bytes
  | .scalar _ | .bool | .char | .unit => []
  | .text => [typeChar8]
  | .vec s | .option s | .set s => s.tag :: s.body
  | .array s n => s.tag :: (s.body ++ appendSizeLiteral n)
  | .result s e => s.tag :: (s.body ++ e.tag :: e.body)
  | .map k v => k.tag :: (k.body ++ v.tag :: v.body)
  | .product pair fields => bodies fields ++ (if pair then [137, 137] else []) ++ [typeEnd]
  | .union alternatives => bodies alternatives ++ [typeEnd]

def bodies : List Shape → Bytes
  | [] => []
  | s :: ss => s.tag :: (s.body ++ bodies ss)

end

mutual

theorem literal_eq : (t : Ty) → t.literal = t.shape.tag :: t.shape.body
  | .scalar _ | .bool | .char | .unit | .string | .byteString | .enum _ => rfl
  | .vec t => by rw [Ty.literal, literal_eq t]; rfl
  | .option t => by rw [Ty.literal, literal_eq t]; rfl
  | .set t => by rw [Ty.literal, literal_eq t]; rfl
  | .array t n => by rw [Ty.literal, literal_eq t]; rfl
  | .result t e => by rw [Ty.literal, literal_eq t, literal_eq e]; rfl
  | .map k v => by rw [Ty.literal, literal_eq k, literal_eq v]; rfl
  | .product kind fields => by
    rw [Ty.literal, literals_eq]
    cases kind <;> rfl
  | .union _ alternatives => by rw [Ty.literal, literals_eq]; rfl

theorem literals_eq : (ts : List Ty) → literals ts = bodies (shapes ts)
  | [] => rfl
  | t :: ts => by
    rw [literals, literal_eq t, literals_eq]
    rfl

end

/-! ### Reading a literal -/

abbrev LiteralReader := Decoder Unit

def nextByte : LiteralReader UInt8 := do
  let bytes ← exactly (fun _ => ()) 1
  return bytes.headD 0

theorem reads_next {α : Type} {b : UInt8} {f : UInt8 → LiteralReader α} {bytes : Bytes} {a : α}
    (h : Reads (f b) bytes a) : Reads (nextByte >>= f) (b :: bytes) a := by
  have hbyte : Reads (exactly (fun _ => ()) 1) [b] [b] := .exactly rfl
  exact (hbyte.map (.pure b)).bind h

def readSize : ℕ → LiteralReader ℕ
  | 0 => fail ()
  | fuel + 1 => do
    let digit ← nextByte
    if digit.toNat < 128 then return (digit.toNat - 1) + 127 * (← readSize fuel)
    else return digit.toNat - 129

theorem reads_sizeWith {fuel fuel' n : ℕ} (h : n < fuel) (h' : n < fuel') :
    Reads (readSize fuel) (sizeLiteralWith fuel' n) n := by
  induction fuel generalizing fuel' n with
  | zero => omega
  | succ fuel ih =>
    obtain ⟨fuel', rfl⟩ : ∃ k, fuel' = k + 1 := ⟨fuel' - 1, by omega⟩
    unfold sizeLiteralWith
    split
    next hlarge =>
      have hdigit : (UInt8.ofNat (n % 127 + 1)).toNat = n % 127 + 1 :=
        UInt8.toNat_ofNat_of_lt (by omega : n % 127 + 1 < 256)
      refine reads_next ?_
      rw [hdigit, if_pos (by omega)]
      refine (ih (by omega) (by omega)).map ?_
      have hn : n % 127 + 1 - 1 + 127 * (n / 127) = n := by omega
      rw [hn]
      exact .pure n
    next hsmall =>
    have hdigit : (UInt8.ofNat (n + 129)).toNat = n + 129 :=
      UInt8.toNat_ofNat_of_lt (by omega : n + 129 < 256)
    refine reads_next ?_
    rw [hdigit, if_neg (by omega), Nat.add_sub_cancel]
    exact .pure n

theorem reads_size {fuel n : ℕ} (h : n < fuel) : Reads (readSize fuel) (appendSizeLiteral n) n :=
  reads_sizeWith h n.lt_succ_self

mutual

/-- The shape whose literal has the given first byte. -/
def readShape : ℕ → UInt8 → LiteralReader Shape
  | 0, _ => fail ()
  | fuel + 1, tag =>
    match Head.ofTag tag with
    | none => fail ()
    | some (.scalar s) => return .scalar s
    | some .bool => return .bool
    | some .char => return .char
    | some .unit => return .unit
    | some .text => do
      let _ ← nextByte
      return .text
    | some .vec => do return .vec (← nextByte >>= readShape fuel)
    | some .array => do
      let shape ← nextByte >>= readShape fuel
      return .array shape (← readSize fuel)
    | some .option => do return .option (← nextByte >>= readShape fuel)
    | some .result => do
      let shape ← nextByte >>= readShape fuel
      return .result shape (← nextByte >>= readShape fuel)
    | some .map => do
      let key ← nextByte >>= readShape fuel
      return .map key (← nextByte >>= readShape fuel)
    | some .set => do return .set (← nextByte >>= readShape fuel)
    | some .product => do
      let (fields, pair) ← readShapes fuel
      return .product pair fields
    | some .union => do
      let (alternatives, _) ← readShapes fuel
      return .union alternatives

/-- The shapes up to the end mark, and whether the layout of a pair was announced. -/
def readShapes : ℕ → LiteralReader (List Shape × Bool)
  | 0 => fail ()
  | fuel + 1 => do
    let tag ← nextByte
    if tag = typeEnd then return ([], false)
    else if tag = 137 then do
      let _ ← nextByte
      let _ ← nextByte
      return ([], true)
    else
      let shape ← readShape fuel tag
      let (rest, pair) ← readShapes fuel
      return (shape :: rest, pair)

end

mutual

/-- Enough fuel to read a literal. -/
def Shape.height : Shape → ℕ
  | .scalar _ | .bool | .char | .unit | .text => 1
  | .vec s | .option s | .set s => s.height + 1
  | .array s n => max s.height (n + 1) + 1
  | .result s e => max s.height e.height + 1
  | .map k v => max k.height v.height + 1
  | .product _ fields => heights fields + 1
  | .union alternatives => heights alternatives + 1

def heights : List Shape → ℕ
  | [] => 1
  | s :: ss => max s.height (heights ss) + 1

end

theorem Shape.height_pos (s : Shape) : 0 < s.height := by
  cases s <;> exact succ_pos _

/-- What stands behind the types of a list. -/
def ending (pair : Bool) : Bytes := (if pair then [137, 137] else []) ++ [typeEnd]

theorem reads_ending (pair : Bool) (fuel : ℕ) :
    Reads (readShapes (fuel + 1)) (ending pair) ([], pair) := by
  cases pair with
  | false => exact reads_next (.pure _)
  | true => exact reads_next (reads_next (reads_next (.pure _)))

mutual

theorem reads_shape :
    (s : Shape) → (fuel : ℕ) → s.height ≤ fuel → Reads (readShape fuel s.tag) s.body s
  | s, 0, h => absurd h (not_le.mpr s.height_pos)
  | .scalar s, fuel + 1, _ => by
    rw [readShape, Shape.tag, Shape.head, Head.ofTag_tag]
    exact .pure _
  | .bool, fuel + 1, _ | .char, fuel + 1, _ | .unit, fuel + 1, _ => .pure _
  | .text, fuel + 1, _ => reads_next (.pure _)
  | .vec s, fuel + 1, h | .option s, fuel + 1, h | .set s, fuel + 1, h =>
    (reads_next (reads_shape s fuel (le_of_succ_le_succ h))).map (.pure _)
  | .array s n, fuel + 1, h => by
    obtain ⟨hs, hn⟩ := max_le_iff.mp (le_of_succ_le_succ h)
    exact (reads_next (reads_shape s fuel hs)).bind ((reads_size hn).map (.pure _))
  | .result s e, fuel + 1, h => by
    obtain ⟨hs, he⟩ := max_le_iff.mp (le_of_succ_le_succ h)
    exact (reads_next (reads_shape s fuel hs)).bind ((reads_next (reads_shape e fuel he)).map (.pure _))
  | .map k v, fuel + 1, h => by
    obtain ⟨hk, hv⟩ := max_le_iff.mp (le_of_succ_le_succ h)
    exact (reads_next (reads_shape k fuel hk)).bind ((reads_next (reads_shape v fuel hv)).map (.pure _))
  | .product pair fields, fuel + 1, h => by
    rw [Shape.body, append_assoc]
    exact (reads_shapes fields pair fuel (le_of_succ_le_succ h)).map (.pure _)
  | .union alternatives, fuel + 1, h =>
    (reads_shapes alternatives false fuel (le_of_succ_le_succ h)).map (.pure _)

theorem reads_shapes : (ss : List Shape) → (pair : Bool) → (fuel : ℕ) → heights ss ≤ fuel →
    Reads (readShapes fuel) (bodies ss ++ ending pair) (ss, pair)
  | [], _, 0, h => absurd h (not_succ_le_zero _)
  | _ :: _, _, 0, h => absurd h (not_succ_le_zero _)
  | [], pair, fuel + 1, _ => reads_ending pair fuel
  | s :: ss, pair, fuel + 1, h => by
    obtain ⟨hs, hss⟩ := max_le_iff.mp (le_of_succ_le_succ h)
    rw [bodies, cons_append, append_assoc]
    refine reads_next ?_
    obtain ⟨hend, hpair⟩ : s.tag ≠ typeEnd ∧ s.tag ≠ 137 := s.head.tag_ne
    rw [if_neg hend, if_neg hpair]
    exact (reads_shape s fuel hs).bind ((reads_shapes ss pair fuel hss).map (.pure _))

end

/-- A literal is read in one way only. -/
theorem shape_eq_of_append {s s' : Shape} {r r' : Bytes}
    (h : s.tag :: s.body ++ r = s'.tag :: s'.body ++ r') : s = s' ∧ r = r' := by
  have hs := reads_next (reads_shape s _ (le_max_left s.height s'.height)) r
  have hs' := reads_next (reads_shape s' _ (le_max_right s.height s'.height)) r'
  rw [h] at hs
  exact Prod.mk.inj (Except.ok.inj (hs.symm.trans hs'))

theorem literal_eq_of_append {t t' : Ty} (h : t.literal ++ r = t'.literal ++ r') :
    t.shape = t'.shape ∧ r = r' := by
  rw [literal_eq, literal_eq] at h
  exact shape_eq_of_append h

/-! ### Payloads of a shape -/

section Skip

variable (w : LengthWidth) (limit : ℕ)

mutual

/-- Reads over a payload, with what the shape alone says about it. -/
def Shape.skip : Shape → PayloadDecoder Unit
  | .scalar s => do
    let _ ← readUint s.width
    return ()
  | .bool => do
    let _ ← readU8 >>= decodeBool
    return ()
  | .char => do
    let _ ← readUint 4 >>= decodeChar
    return ()
  | .unit => return ()
  | .text => do
    let length ← readLen w limit
    let _ ← readExact length
    return ()
  | .vec s | .set s => do
    let length ← readLen w limit
    let _ ← replicate s.skip length
    return ()
  | .array s n => do
    let _ ← replicate s.skip n
    return ()
  | .option s => do
    let value ← readU8
    if value = 0 then return ()
    else if value = 1 then s.skip
    else fail (.invalidBool value)
  | .result s e => do
    let value ← readU8
    if value = 0 then e.skip
    else if value = 1 then s.skip
    else fail (.invalidBool value)
  | .map k v => do
    let length ← readLen w limit
    let _ ← replicate (do
      let _ ← k.skip
      v.skip) length
    return ()
  | .product _ fields => skipFields fields
  | .union alternatives => do
    let index ← readU8
    skipAlternative alternatives index.toNat

def skipFields : List Shape → PayloadDecoder Unit
  | [] => return ()
  | s :: ss => do
    let _ ← s.skip
    skipFields ss

def skipAlternative : List Shape → ℕ → PayloadDecoder Unit
  | [], _ => fail (.invalidVariantIndex "" 0 0)
  | s :: _, 0 => s.skip
  | _ :: ss, index + 1 => skipAlternative ss index

end

end Skip

/-- The errors in which types of one shape may differ. -/
def Tolerated : StructPackError → Prop
  | .invalidUtf8 | .invalidEnumDiscriminant _ _ => True
  | _ => False

/-- The decoder reads the same bytes as the one for the shape. -/
abbrev Skips {α : Type} (d : PayloadDecoder α) (skip : PayloadDecoder Unit) : Prop :=
  Follows Tolerated (fun _ _ => True) d skip

section Skips

variable {order : KeyOrder} {w : LengthWidth} {limit : ℕ}

theorem skips_utf8 (bytes : Bytes) : Skips (decodeUtf8 bytes) (pure ()) := by
  unfold decodeUtf8
  split
  · exact .pure trivial
  · exact .fail trivial

theorem skips_discriminant (e : EnumType) (value : ℤ) :
    Skips (decodeDiscriminant e value) (pure ()) := by
  unfold decodeDiscriminant
  split
  · exact .pure trivial
  · exact .fail trivial

theorem skips_fit {α : Type} {values : List α} {n : ℕ} (h : values.length = n) :
    Skips (if h : values.length = n then (pure ⟨values, h⟩ : PayloadDecoder { l : List α // l.length = n })
      else fail .lengthOverflow) (pure ()) := by
  rw [dif_pos h]
  exact .pure trivial

theorem skips_pair {α β : Type} {d : PayloadDecoder α} {d' : PayloadDecoder β}
    {skip skip' : PayloadDecoder Unit} (h : Skips d skip) (h' : Skips d' skip') :
    Skips (do let a ← d; let b ← d'; return (a, b)) (do let _ ← skip; skip') :=
  h.bind fun _ _ _ => h'.map fun _ _ _ => trivial

mutual

theorem skips_payload : (t : Ty) → Skips (decodePayload order w limit t) (t.shape.skip w limit)
  | .scalar _ => .bind_self fun _ => .pure trivial
  | .bool | .char => .discard (.refl _)
  | .unit => .pure trivial
  | .string => .bind_self fun _ => .bind_self skips_utf8
  | .byteString => .bind_self fun _ => .discard (.refl _)
  | .vec t => .bind_self fun length => .discard ((skips_payload t).replicate length)
  | .array t n => ((skips_payload t).replicate n).bind fun _ _ hlth => skips_fit hlth
  | .option t => .bind_self fun _ =>
    .ite (.pure trivial) (.ite ((skips_payload t).map fun _ _ _ => trivial) .failed)
  | .result t e => .bind_self fun _ =>
    .ite ((skips_payload e).map fun _ _ _ => trivial)
      (.ite ((skips_payload t).map fun _ _ _ => trivial) .failed)
  | .map k v => .bind_self fun length =>
    ((skips_pair (skips_payload k) (skips_payload v)).replicate length).bind fun _ _ _ =>
      .pure trivial
  | .set t => .bind_self fun length => ((skips_payload t).replicate length).bind fun _ _ _ =>
    .pure trivial
  | .product _ fields => skips_fields fields
  | .enum e => .bind_self fun _ => skips_discriminant e _
  | .union _ alternatives => .bind_self fun _ => skips_alternative _ alternatives _

theorem skips_fields :
    (ts : List Ty) → Skips (decodeFields order w limit ts) (skipFields w limit (shapes ts))
  | [] => .pure trivial
  | t :: ts => (skips_payload t).bind fun _ _ _ => (skips_fields ts).map fun _ _ _ => trivial

theorem skips_alternative (unknown : StructPackError) : (ts : List Ty) → (index : ℕ) →
    Skips (decodeAlternative order w limit unknown ts index) (skipAlternative w limit (shapes ts) index)
  | [], _ => .failed
  | t :: _, 0 => (skips_payload t).map fun _ _ _ => trivial
  | _ :: ts, index + 1 => (skips_alternative unknown ts index).map fun _ _ _ => trivial

end

end Skips

/-- The payloads of two types have the same format: both decoders take the same bytes, and a payload
of the one type is refused by the other only for a text or an enum value. -/
structure SameFormat (t t' : Ty) : Prop where
  consumed : ∀ order w limit s v r v' r', (decodePayload order w limit t).run s = .ok (v, r) →
    (decodePayload order w limit t').run s = .ok (v', r') → r = r'
  refused : ∀ order w limit v bytes rest err, Ordered order t v → Within limit t v →
    encodePayload w t v = .ok bytes → (decodePayload order w limit t').run (bytes ++ rest) = .error
    err → err = .invalidUtf8 ∨ ∃ name value, err = .invalidEnumDiscriminant name value

theorem Tolerated.cases {err : StructPackError} (h : Tolerated err) :
    err = .invalidUtf8 ∨ ∃ name value, err = .invalidEnumDiscriminant name value := by
  cases err with
  | invalidUtf8 => exact .inl rfl
  | invalidEnumDiscriminant name value => exact .inr ⟨name, value, rfl⟩
  | _ => exact h.elim

theorem sameFormat_of_shape (ht : t.Supported) (h : t.shape = t'.shape) : SameFormat t t' := by
  have hskips : ∀ {order w limit}, Skips (decodePayload order w limit t') (t.shape.skip w limit) := by
    intro order w limit
    rw [h]
    exact skips_payload t'
  constructor
  · intro order w limit s v r v' r' hd hd'
    rcases (skips_payload t).agree hskips hd with ⟨u, hu⟩ | ⟨err, herr, -⟩
    · cases hd'.symm.trans hu
      rfl
    · cases hd'.symm.trans herr
  · intro order w limit v bytes rest err hv hlim henc hd'
    rcases (skips_payload t).agree hskips (reads_encoded ht hv hlim henc rest) with ⟨u, hu⟩ | ⟨_, herr, htol⟩
    · cases hd'.symm.trans hu
    · cases hd'.symm.trans herr
      exact htol.cases

/-- **Unique readability.** No type literal is a proper beginning of another one, and types with the
same literal have the same payload format. So the hash tells the formats apart unless the digests of
two different literals agree in it. -/
theorem literal_readable (md5Hash32 : Bytes → UInt32) (t t' : Ty) (ht : t.Supported)
    (ht' : t'.Supported) :
    (t.literal <+: t'.literal → t.literal = t'.literal) ∧
      (t.literal = t'.literal → SameFormat t t' ∧ SameFormat t' t) ∧
      (typeHash md5Hash32 t = typeHash md5Hash32 t' → ¬SameFormat t t' →
        t.literal ≠ t'.literal ∧ md5Hash32 t.literal &&& 0xfffffffe = md5Hash32 t'.literal &&& 0xfffffffe) := by
  have hsame : t.literal = t'.literal → SameFormat t t' ∧ SameFormat t' t := by
    intro h
    have hshape : t.shape = t'.shape := (literal_eq_of_append (congrArg (· ++ []) h)).1
    exact ⟨sameFormat_of_shape ht hshape, sameFormat_of_shape ht' hshape.symm⟩
  refine ⟨?_, hsame, fun hhash hformat => ⟨fun h => hformat (hsame h).1, hhash⟩⟩
  rintro ⟨_, hrest⟩
  rw [← append_nil t'.literal] at hrest
  rw [(literal_eq_of_append hrest).2, append_nil, append_nil] at hrest
  exact hrest

/-- The literals of strings and byte strings are the same. -/
theorem literal_readable_text : SameFormat .string .byteString ∧ SameFormat .byteString .string :=
  (literal_readable (fun _ => 0) .string .byteString trivial trivial).2.1 rfl

end Cakemaster.Rpc
