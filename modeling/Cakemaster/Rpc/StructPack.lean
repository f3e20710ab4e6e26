import Cakemaster.Wire.Decoder

/-!
# The struct_pack format

The types that have a portable schema, their values, and the programs that the trait
`StructPack` has for each of them: the type literal, the length of the largest container,
the encoding and the decoding of a payload. Reflected structs, generated enums and
generated unions are described by what their implementations depend on.

A payload is decoded from the bytes that are left of the input. A `BTreeMap` or `BTreeSet` is the
list of its entries in order; the order of the keys is any `Ord` implementation
(`KeyOrder`). A `String` is valid UTF-8 and a `char` is a Unicode scalar value, as they are in
Lean; integers and floats are bit patterns.
-/

namespace Cakemaster.Rpc

open Wire Decoder List

def typeInt32 : UInt8 := 1
def typeUint32 : UInt8 := 2
def typeInt64 : UInt8 := 3
def typeUint64 : UInt8 := 4
def typeInt8 : UInt8 := 5
def typeUint8 : UInt8 := 6
def typeInt16 : UInt8 := 7
def typeUint16 : UInt8 := 8
def typeBool : UInt8 := 11
def typeChar8 : UInt8 := 12
def typeChar32 : UInt8 := 14
def typeFloat32 : UInt8 := 17
def typeFloat64 : UInt8 := 18
def typeString : UInt8 := 128
def typeArray : UInt8 := 129
def typeMap : UInt8 := 130
def typeSet : UInt8 := 131
def typeContainer : UInt8 := 132
def typeOptional : UInt8 := 133
def typeVariant : UInt8 := 134
def typeExpected : UInt8 := 135
def typeMonostate : UInt8 := 250
def typeStruct : UInt8 := 253
def typeEnd : UInt8 := 255

def metaCompatibleSizeMask : UInt8 := 0b00000011
def metaTypeLiteral : UInt8 := 0b00000100
def metaLengthWidthMask : UInt8 := 0b00011000
def metaReservedMask : UInt8 := 0b11100000

def defaultContainerLimit : ℕ := 64 * 1024 * 1024

inductive StructPackError
  | unexpectedEof (needed remaining : ℕ)
  | invalidTypeHash (expected actual : UInt32)
  | invalidTypeLiteral
  | invalidUtf8
  | invalidBool (value : UInt8)
  | invalidChar (value : ℕ)
  | invalidEnumDiscriminant (name : String) (value : ℤ)
  | invalidVariantIndex (name : String) (index : UInt8) (alternatives : ℕ)
  | containerTooLarge (length limit : ℕ)
  | lengthOverflow
  | trailingBytes (count : ℕ)
  | invalidMetadata (reason : String)
  | declaredSizeMismatch (declared actual : ℕ)
deriving DecidableEq

/-! ### Types and values -/

/-- The types of `impl_integer!`. -/
inductive Scalar
  | i8 | u8 | i16 | u16 | i32 | u32 | i64 | u64 | f32 | f64
deriving DecidableEq

namespace Scalar

def tag : Scalar → UInt8
  | i8 => typeInt8
  | u8 => typeUint8
  | i16 => typeInt16
  | u16 => typeUint16
  | i32 => typeInt32
  | u32 => typeUint32
  | i64 => typeInt64
  | u64 => typeUint64
  | f32 => typeFloat32
  | f64 => typeFloat64

def width : Scalar → ℕ
  | i8 | u8 => 1
  | i16 | u16 => 2
  | i32 | u32 | f32 => 4
  | i64 | u64 | f64 => 8

end Scalar

inductive EnumRepr
  | i32
  | u8
deriving DecidableEq

namespace EnumRepr

def scalar : EnumRepr → Scalar
  | i32 => .i32
  | u8 => .u8

def Fits : EnumRepr → ℤ → Prop
  | i32, value => -2 ^ 31 ≤ value ∧ value < 2 ^ 31
  | u8, value => 0 ≤ value ∧ value < 2 ^ 8

def bits (repr : EnumRepr) (value : ℤ) : BitVec (8 * repr.scalar.width) := BitVec.ofInt _ value

def value : (repr : EnumRepr) → BitVec (8 * repr.scalar.width) → ℤ
  | i32, bits => BitVec.toInt bits
  | u8, bits => BitVec.toNat bits

end EnumRepr

/-- A generated enum, whose values fit its representation. -/
structure EnumType where
  name : String
  repr : EnumRepr
  values : List ℤ
  fits : ∀ value ∈ values, repr.Fits value

/-- The products with fields in a row: tuples, structs of `impl_struct_pack!`, and generated structs
that have the layout of a C++ pair. -/
inductive ProductKind
  | tuple
  | reflected
  | cppU64Pair
deriving DecidableEq

inductive Ty
  | scalar (s : Scalar)
  | bool
  | char
  | unit
  | string
  | byteString
  | vec (t : Ty)
  | array (t : Ty) (n : ℕ)
  | option (t : Ty)
  | result (t e : Ty)
  | map (k v : Ty)
  | set (t : Ty)
  | product (kind : ProductKind) (fields : List Ty)
  | enum (e : EnumType)
  | union (name : String) (alternatives : List Ty)

mutual

def Ty.Value : Ty → Type
  | .scalar s => BitVec (8 * s.width)
  | .bool => Bool
  | .char => Char
  | .unit => Unit
  | .string => String
  | .byteString => Bytes
  | .vec t => List t.Value
  | .array t n => { l : List t.Value // l.length = n }
  | .option t => Option t.Value
  | .result t e => t.Value ⊕ e.Value
  | .map k v => List (k.Value × v.Value)
  | .set t => List t.Value
  | .product _ fields => Fields fields
  | .enum e => { value : ℤ // value ∈ e.values }
  | .union _ alternatives => Alternative alternatives

def Fields : List Ty → Type
  | [] => Unit
  | t :: ts => t.Value × Fields ts

/-- A value of one of the types. -/
def Alternative : List Ty → Type
  | [] => Empty
  | t :: ts => t.Value ⊕ Alternative ts

end

/-- The `Ord` implementations of the key types. -/
structure KeyOrder where
  cmp : (t : Ty) → t.Value → t.Value → Ordering
  swap : ∀ t a b, cmp t b a = (cmp t a b).swap

/-! ### Type literals -/

/-- The rounds of `append_size_literal`, of which every one divides the size. -/
def sizeLiteralWith : ℕ → ℕ → Bytes
  | 0, _ => []
  | fuel + 1, size =>
    if 127 ≤ size then UInt8.ofNat (size % 127 + 1) :: sizeLiteralWith fuel (size / 127)
    else [UInt8.ofNat (size + 129)]

def appendSizeLiteral (size : ℕ) : Bytes := sizeLiteralWith (size + 1) size

/-- What stands behind the fields of a product. -/
def ProductKind.trailer : ProductKind → Bytes
  | .tuple | .reflected => []
  | .cppU64Pair => [137, 137]

mutual

def Ty.literal : Ty → Bytes
  | .scalar s => [s.tag]
  | .bool => [typeBool]
  | .char => [typeChar32]
  | .unit => [typeMonostate]
  | .string | .byteString => [typeString, typeChar8]
  | .vec t => typeContainer :: t.literal
  | .array t n => typeArray :: (t.literal ++ appendSizeLiteral n)
  | .option t => typeOptional :: t.literal
  | .result t e => typeExpected :: (t.literal ++ e.literal)
  | .map k v => typeMap :: (k.literal ++ v.literal)
  | .set t => typeSet :: t.literal
  | .product kind fields => typeStruct :: (literals fields ++ kind.trailer ++ [typeEnd])
  | .enum e => [e.repr.scalar.tag]
  | .union _ alternatives => typeVariant :: (literals alternatives ++ [typeEnd])

def literals : List Ty → Bytes
  | [] => []
  | t :: ts => t.literal ++ literals ts

end

/-! ### Lengths -/

inductive LengthWidth
  | one
  | two
  | four
  | eight
deriving DecidableEq

namespace LengthWidth

def bytes : LengthWidth → ℕ
  | one => 1
  | two => 2
  | four => 4
  | eight => 8

def tag : LengthWidth → UInt8
  | one => 0
  | two => 1
  | four => 2
  | eight => 3

def ofTag (tag : UInt8) : LengthWidth :=
  if tag = 0 then one else if tag = 1 then two else if tag = 2 then four else eight

def forLength (length : ℕ) : LengthWidth :=
  if length < 2 ^ 8 then one else if length < 2 ^ 16 then two else if length < 2 ^ 32 then four
    else eight

end LengthWidth

def utf8Bytes (s : String) : Bytes := s.toUTF8.data.toList

/-- The maximum of a container's length and the given numbers. -/
def maximum (length : ℕ) (lengths : List ℕ) : ℕ := lengths.foldl max length

mutual

def maxContainerLen : (t : Ty) → t.Value → ℕ
  | .scalar _, _ => 0
  | .bool, _ => 0
  | .char, _ => 0
  | .unit, _ => 0
  | .string, s => (utf8Bytes s).length
  | .byteString, bytes => length bytes
  | .vec t, vs => maximum (length vs) (map (fun v => maxContainerLen t v) vs)
  | .array t _, vs => maximum 0 (map (fun v => maxContainerLen t v) vs.1)
  | .option t, v => Option.elim v 0 fun v => maxContainerLen t v
  | .result t e, v => Sum.elim (fun v => maxContainerLen t v) (fun v => maxContainerLen e v) v
  | .map k v, entries =>
    maximum (length entries)
      (map (fun entry => max (maxContainerLen k entry.1) (maxContainerLen v entry.2)) entries)
  | .set t, vs => maximum (length vs) (map (fun v => maxContainerLen t v) vs)
  | .product _ fields, vs => maxFieldsLen fields vs
  | .enum _, _ => 0
  | .union _ alternatives, v => maxAlternativeLen alternatives v

def maxFieldsLen : (ts : List Ty) → Fields ts → ℕ
  | [], _ => 0
  | t :: ts, (v, vs) => max (maxContainerLen t v) (maxFieldsLen ts vs)

def maxAlternativeLen : (ts : List Ty) → Alternative ts → ℕ
  | [], v => nomatch v
  | t :: _, .inl v => maxContainerLen t v
  | _ :: ts, .inr v => maxAlternativeLen ts v

end

/-! ### Encoding -/

def writeLen (w : LengthWidth) (length : ℕ) : Except StructPackError Bytes :=
  if length < 256 ^ w.bytes then .ok (littleEndian w.bytes length) else .error .lengthOverflow

mutual

def encodePayload (w : LengthWidth) : (t : Ty) → t.Value → Except StructPackError Bytes
  | .scalar s, v => .ok (littleEndian s.width (BitVec.toNat v))
  | .bool, b => .ok [Bool.toUInt8 b]
  | .char, c => .ok (littleEndian 4 (Char.toNat c))
  | .unit, _ => .ok []
  | .string, s => do
    let length ← writeLen w (utf8Bytes s).length
    return length ++ utf8Bytes s
  | .byteString, bytes => do
    let length ← writeLen w (length bytes)
    return List.append length bytes
  | .vec t, vs => do
    let length ← writeLen w (length vs)
    let parts ← mapM (fun v => encodePayload w t v) vs
    return length ++ parts.flatten
  | .array t _, vs => do
    let parts ← mapM (fun v => encodePayload w t v) vs.1
    return parts.flatten
  | .option t, v =>
    match (v : Option t.Value) with
    | none => .ok [0]
    | some v => do return 1 :: (← encodePayload w t v)
  | .result t e, v =>
    match (v : t.Value ⊕ e.Value) with
    | .inl v => do return 1 :: (← encodePayload w t v)
    | .inr v => do return 0 :: (← encodePayload w e v)
  | .map k v, entries => do
    let length ← writeLen w (length entries)
    let parts ← mapM (fun entry => do
      return (← encodePayload w k entry.1) ++ (← encodePayload w v entry.2)) entries
    return length ++ parts.flatten
  | .set t, vs => do
    let length ← writeLen w (length vs)
    let parts ← mapM (fun v => encodePayload w t v) vs
    return length ++ parts.flatten
  | .product _ fields, vs => encodeFields w fields vs
  | .enum e, v => .ok (littleEndian e.repr.scalar.width (e.repr.bits v.1).toNat)
  | .union _ alternatives, v => encodeAlternative w alternatives 0 v

def encodeFields (w : LengthWidth) : (ts : List Ty) → Fields ts → Except StructPackError Bytes
  | [], _ => .ok []
  | t :: ts, (v, vs) => do
    let field ← encodePayload w t v
    let rest ← encodeFields w ts vs
    return field ++ rest

def encodeAlternative (w : LengthWidth) :
    (ts : List Ty) → ℕ → Alternative ts → Except StructPackError Bytes
  | [], _, v => nomatch v
  | t :: _, index, .inl v => do return UInt8.ofNat index :: (← encodePayload w t v)
  | _ :: ts, index, .inr v => encodeAlternative w ts (index + 1) v

end

/-! ### Decoding -/

abbrev PayloadDecoder := Decoder StructPackError

def readExact (length : ℕ) : PayloadDecoder Bytes := exactly (.unexpectedEof length) length

/-- `read_u8`, `read_u16`, `read_u32` and `read_u64`. -/
def readUint (width : ℕ) : PayloadDecoder ℕ := do
  let bytes ← readExact width
  return ofLittleEndian bytes

def readU8 : PayloadDecoder UInt8 := do
  let value ← readUint 1
  return .ofNat value

def readLen (w : LengthWidth) (limit : ℕ) : PayloadDecoder ℕ := do
  let length ← readUint w.bytes
  if limit < length then fail (.containerTooLarge length limit) else return length

def decodeChar (value : ℕ) : PayloadDecoder Char :=
  if value.isValidChar then return .ofNat value else fail (.invalidChar value)

def decodeBool (value : UInt8) : PayloadDecoder Bool :=
  if value = 0 then return false else if value = 1 then return true else fail (.invalidBool value)

def decodeUtf8 (bytes : Bytes) : PayloadDecoder String :=
  match String.fromUTF8? ⟨bytes.toArray⟩ with
  | some s => return s
  | none => fail .invalidUtf8

def decodeDiscriminant (e : EnumType) (value : ℤ) :
    PayloadDecoder { value : ℤ // value ∈ e.values } :=
  if h : value ∈ e.values then return ⟨value, h⟩ else fail (.invalidEnumDiscriminant e.name value)

/-- `insert` of an ordered container: an equal key keeps its place. -/
def insertEntry {α : Type} (cmp : α → α → Ordering) (replace : α → α → α) (entry : α) :
    List α → List α
  | [] => [entry]
  | old :: rest =>
    match cmp entry old with
    | .lt => entry :: old :: rest
    | .eq => replace entry old :: rest
    | .gt => old :: insertEntry cmp replace entry rest

/-- `BTreeMap::insert`, which keeps the old key with the new value. -/
def KeyOrder.insertPair (order : KeyOrder) {k v : Ty} :
    k.Value × v.Value → List (k.Value × v.Value) → List (k.Value × v.Value) :=
  insertEntry (fun a b => order.cmp k a.1 b.1) fun new old => (old.1, new.2)

/-- `BTreeSet::insert`, which keeps the old element. -/
def KeyOrder.insertElement (order : KeyOrder) {t : Ty} : t.Value → List t.Value → List t.Value :=
  insertEntry (order.cmp t) fun _ old => old

mutual

def decodePayload (order : KeyOrder) (w : LengthWidth) (limit : ℕ) :
    (t : Ty) → PayloadDecoder t.Value
  | .scalar s => do
    let value ← readUint s.width
    return BitVec.ofNat _ value
  | .bool => do decodeBool (← readU8)
  | .char => do decodeChar (← readUint 4)
  | .unit => return ()
  | .string => do
    let length ← readLen w limit
    let bytes ← readExact length
    decodeUtf8 bytes
  | .byteString => do
    let length ← readLen w limit
    readExact length
  | .vec t => do
    let length ← readLen w limit
    (decodePayload order w limit t).replicate length
  | .array t n => do
    let values ← (decodePayload order w limit t).replicate n
    if h : values.length = n then return ⟨values, h⟩ else fail .lengthOverflow
  | .option t => do
    let value ← readU8
    if value = 0 then return none
    else if value = 1 then return some (← decodePayload order w limit t)
    else fail (.invalidBool value)
  | .result t e => do
    let value ← readU8
    if value = 0 then return .inr (← decodePayload order w limit e)
    else if value = 1 then return .inl (← decodePayload order w limit t)
    else fail (.invalidBool value)
  | .map k v => do
    let length ← readLen w limit
    let entries ← replicate (do
      let key ← decodePayload order w limit k
      let value ← decodePayload order w limit v
      return (key, value)) length
    return entries.foldl (fun entries entry => order.insertPair entry entries) []
  | .set t => do
    let length ← readLen w limit
    let values ← (decodePayload order w limit t).replicate length
    return values.foldl (fun values value => order.insertElement value values) []
  | .product _ fields => decodeFields order w limit fields
  | .enum e => do
    let value ← readUint e.repr.scalar.width
    decodeDiscriminant e (e.repr.value (BitVec.ofNat _ value))
  | .union name alternatives => do
    let index ← readU8
    decodeAlternative order w limit (.invalidVariantIndex name index alternatives.length)
      alternatives index.toNat

def decodeFields (order : KeyOrder) (w : LengthWidth) (limit : ℕ) :
    (ts : List Ty) → PayloadDecoder (Fields ts)
  | [] => return ()
  | t :: ts => do
    let field ← decodePayload order w limit t
    let rest ← decodeFields order w limit ts
    return (field, rest)

def decodeAlternative (order : KeyOrder) (w : LengthWidth) (limit : ℕ) (unknown : StructPackError) :
    (ts : List Ty) → ℕ → PayloadDecoder (Alternative ts)
  | [], _ => fail unknown
  | t :: _, 0 => do return .inl (← decodePayload order w limit t)
  | _ :: ts, index + 1 => do return .inr (← decodeAlternative order w limit unknown ts index)

end

/-! ### Whole messages -/

/-- `type_hash`, from the digest of the type literal. -/
def typeHash (md5Hash32 : Bytes → UInt32) (t : Ty) : UInt32 := md5Hash32 t.literal &&& 0xfffffffe

def serializeWithTypeHash (t : Ty) (v : t.Value) (hash : UInt32) :
    Except StructPackError Bytes := do
  let lengthWidth := LengthWidth.forLength (maxContainerLen t v)
  let hasMetadata := lengthWidth ≠ .one
  let hash := if hasMetadata then hash ||| 1 else hash
  let header := littleEndian 4 hash.toNat ++ if hasMetadata then [lengthWidth.tag <<< 3] else []
  let payload ← encodePayload lengthWidth t v
  return header ++ payload

def serialize (md5Hash32 : Bytes → UInt32) (t : Ty) (v : t.Value) : Except StructPackError Bytes :=
  serializeWithTypeHash t v (typeHash md5Hash32 t)

/-- The size that the metadata declares for the whole message. -/
def readDeclaredSize (metadata : UInt8) : PayloadDecoder (Option ℕ) :=
  match (metadata &&& metaCompatibleSizeMask).toNat with
  | 0 => return none
  | 1 => do return some (← readUint 2)
  | 2 => do return some (← readUint 4)
  | _ => do return some (← readUint 8)

def readTypeLiteral (literal : Bytes) : PayloadDecoder Unit := do
  let actual ← readExact literal.length
  let terminator ← readU8
  if actual ≠ literal ∨ terminator ≠ 0 then fail .invalidTypeLiteral else return ()

/-- The metadata byte and what it announces: the width of lengths and the declared size. -/
def readMetadata (literal : Bytes) : PayloadDecoder (LengthWidth × Option ℕ) := do
  let metadata ← readU8
  if metadata &&& metaReservedMask ≠ 0 then fail (.invalidMetadata "reserved bits are set")
  else
    let declared ← readDeclaredSize metadata
    let _ ← if metadata &&& metaTypeLiteral ≠ 0 then readTypeLiteral literal else pure ()
    return (.ofTag ((metadata &&& metaLengthWidthMask) >>> 3), declared)

def readHeader (literal : Bytes) (expectedHash : UInt32) :
    PayloadDecoder (LengthWidth × Option ℕ) := do
  let value ← readUint 4
  let encodedHash := UInt32.ofNat value
  if encodedHash &&& 0xfffffffe ≠ expectedHash then
    fail (.invalidTypeHash expectedHash (encodedHash &&& 0xfffffffe))
  else if encodedHash &&& 1 ≠ 0 then readMetadata literal
  else return (.one, none)

def deserializeWithTypeHashAndLimit (order : KeyOrder) (t : Ty) (expectedHash : UInt32)
    (containerLimit : ℕ) (input : Bytes) : Except StructPackError t.Value := do
  let ((lengthWidth, declared), payload) ← (readHeader t.literal expectedHash).run input
  match declared with
  | some declared =>
    if declared ≠ input.length then throw (.declaredSizeMismatch declared input.length)
    let (value, _) ← (decodePayload order lengthWidth containerLimit t).run payload
    return value
  | none =>
    let (value, remaining) ← (decodePayload order lengthWidth containerLimit t).run payload
    if remaining.length ≠ 0 then throw (.trailingBytes remaining.length)
    return value

def deserializeWithLimit (md5Hash32 : Bytes → UInt32) (order : KeyOrder) (t : Ty)
    (containerLimit : ℕ) (input : Bytes) : Except StructPackError t.Value :=
  deserializeWithTypeHashAndLimit order t (typeHash md5Hash32 t) containerLimit input

def deserialize (md5Hash32 : Bytes → UInt32) (order : KeyOrder) (t : Ty) (input : Bytes) :
    Except StructPackError t.Value :=
  deserializeWithLimit md5Hash32 order t defaultContainerLimit input

end Cakemaster.Rpc
