import Cakemaster.Codegen.Document

/-!
# Generated Rust

The items and the method descriptors that the generator writes, as far as they bear on the wire
format: type aliases, enums, unions, structs, and for each method its request and response types
with their hashes. `Denotes` says which type of the runtime a Rust type is in the scope of the
items: an alias is its target, and a tuple or an ordered container has the trait only under the
bounds of its implementation. -/

namespace Cakemaster.Codegen

open Wire Rpc

inductive RustType
  | unit
  | bool
  | scalar (s : Scalar)
  | string
  | byteString
  | vec (t : RustType)
  | btreeSet (t : RustType)
  | btreeMap (k v : RustType)
  | option (t : RustType)
  | result (t e : RustType)
  | tuple (ts : List RustType)
  | item (name : String)

inductive Item
  | typeAlias (name : String) (target : RustType)
  | enumeration (variants : List String) (type : EnumType)
  | union (name : String) (variants : List (String × RustType))
  | reflected (name : String) (fields : List (String × RustType))
  | cppU64Pair (name : String) (fields : List (String × RustType))

def Item.name : Item → String
  | typeAlias name _ => name
  | enumeration _ type => type.name
  | union name _ => name
  | reflected name _ => name
  | cppU64Pair name _ => name

structure RpcMethod where
  wireName : String
  routeId : UInt32
  requestType : RustType
  returnType : RustType
  requestHash : UInt32
  responseHash : UInt32

instance (repr : EnumRepr) (value : ℤ) : Decidable (repr.Fits value) := by
  cases repr <;> exact inferInstanceAs (Decidable (_ ∧ _))

section Generation

variable (kit : Toolkit)

/-- `rust_type` of a type that is not optional. -/
def rustTypeOf : IdlType → Check RustType
  | .void => .ok .unit
  | .bool => .ok .bool
  | .i8 => .ok (.scalar .i8)
  | .u8 => .ok (.scalar .u8)
  | .i16 => .ok (.scalar .i16)
  | .u16 => .ok (.scalar .u16)
  | .i32 => .ok (.scalar .i32)
  | .u32 => .ok (.scalar .u32)
  | .i64 => .ok (.scalar .i64)
  | .u64 => .ok (.scalar .u64)
  | .f32 => .ok (.scalar .f32)
  | .f64 => .ok (.scalar .f64)
  | .string => .ok .string
  | .binary => .ok .byteString
  | .list value => do
    let value ← rustTypeOf value
    return .vec value
  | .set value => do
    let value ← rustTypeOf value
    return .btreeSet value
  | .map key value => do
    let key ← rustTypeOf key
    let value ← rustTypeOf value
    return .btreeMap key value
  | .named name => do
    let name ← kit.rustIdent (kit.upperCamel name) "type reference"
    return .item name

def rustType (type : IdlType) (optional : Bool) : Check RustType := do
  let inner ← rustTypeOf kit type
  return if optional then .option inner else inner

def requestRustType : List RustType → RustType
  | [only] => only
  | parameterTypes => .tuple parameterTypes

def generateTypedef (typedef : Typedef) : Check Item := do
  let name ← kit.rustIdent (kit.upperCamel typedef.name) "typedef"
  let target ← rustType kit typedef.target false
  return .typeAlias name target

/-- The generator panics on a value that does not fit. -/
def generateEnum (enumeration : Enumeration) : Check Item := do
  let name ← kit.rustIdent (kit.upperCamel enumeration.name) "enum"
  let variants ← enumeration.variants.mapM fun variant =>
    kit.rustIdent (kit.upperCamel variant.name) "enum variant"
  let values := enumeration.variants.map (·.value.toInt)
  if h : ∀ value ∈ values, enumeration.repr.Fits value then
    return .enumeration variants ⟨name, enumeration.repr, values, h⟩
  else .error ⟨"u8 enum values are validated before generation"⟩

/-- The first argument of the `Result` for an expected union. -/
def expectedValueType : Option Field → Check RustType
  | some value => rustType kit value.type false
  | none => .ok .unit

def generateUnion (union : Union) : Check Item := do
  let name ← kit.rustIdent (kit.upperCamel union.name) "union"
  if union.expected then do
    let (value, error) ← expectedAlternatives union
    let value ← expectedValueType kit value
    let error ← rustType kit error.type false
    return .typeAlias name (.result value error)
  else do
    let alternatives := orderedFields union.alternatives
    let variantNames ← alternatives.mapM fun alternative =>
      kit.rustIdent (kit.upperCamel alternative.name) "union variant"
    let variantTypes ← alternatives.mapM fun alternative => rustType kit alternative.type false
    require (alternatives.length ≤ 256) "unions are validated to have fewer than 256 fields"
    return .union name (variantNames.zip variantTypes)

def generateStruct (structure_ : Structure) : Check Item := do
  let name ← kit.rustIdent (kit.upperCamel structure_.name) "struct"
  let fields := orderedFields structure_.fields
  let fieldNames ← fields.mapM fun field => kit.rustIdent (kit.snake field.name) "field"
  let fieldTypes ← fields.mapM fun field => rustType kit field.type field.optional
  return if structure_.cppU64Pair then .cppU64Pair name (fieldNames.zip fieldTypes)
    else .reflected name (fieldNames.zip fieldTypes)

def generateItems (doc : Document) : Check (List Item) := do
  let typedefs ← doc.typedefs.mapM (generateTypedef kit)
  let enums ← doc.enums.mapM (generateEnum kit)
  let unions ← doc.unions.mapM (generateUnion kit)
  let structs ← doc.structs.mapM (generateStruct kit)
  return typedefs ++ enums ++ unions ++ structs

/-- The descriptor that `generate_service` writes for a method with parameters. -/
def generateMethod (doc : Document) (service : Service) (function : Function) :
    Check RpcMethod := do
  let _ ← kit.rustIdent (kit.snake function.name) "method"
  let name := wireName doc service function
  let returnType ← rustType kit function.returns false
  let response ← typeLiteral doc [] function.returns false
  let fields := orderedFields function.parameters
  let _ ← fields.mapM fun field => kit.rustIdent (kit.snake field.name) "parameter"
  let parameterTypes ← fields.mapM fun field => rustType kit field.type field.optional
  let request ← requestTypeLiteral doc [] function.parameters
  return {
    wireName := name
    routeId := kit.md5Hash32 (utf8Bytes name)
    requestType := requestRustType parameterTypes
    returnType := returnType
    requestHash := hashTypeLiteral kit.md5Hash32 request
    responseHash := hashTypeLiteral kit.md5Hash32 response }

end Generation

/-! ### The types of the runtime -/

mutual

/-- The types with an order: generated structs and unions derive none. -/
def isOrd : Ty → Bool
  | .scalar s => s ≠ .f32 ∧ s ≠ .f64
  | .bool | .char | .unit | .string | .byteString => true
  | .vec t | .array t _ | .option t | .set t => isOrd t
  | .result t e => isOrd t && isOrd e
  | .map k v => isOrd k && isOrd v
  | .product .tuple fields => areOrd fields
  | .product _ _ => false
  | .enum _ => true
  | .union _ _ => false

def areOrd : List Ty → Bool
  | [] => true
  | t :: ts => isOrd t && areOrd ts

end

mutual

/-- The type of the runtime, when the types of the items are known. -/
def RustType.tyIn (item : String → Option Ty) : RustType → Option Ty
  | .unit => some .unit
  | .bool => some .bool
  | .scalar s => some (.scalar s)
  | .string => some .string
  | .byteString => some .byteString
  | .vec t => do
    let t ← t.tyIn item
    return .vec t
  | .btreeSet t => do
    let t ← t.tyIn item
    if isOrd t then some (.set t) else none
  | .btreeMap k v => do
    let k ← k.tyIn item
    let v ← v.tyIn item
    if isOrd k then some (.map k v) else none
  | .option t => do
    let t ← t.tyIn item
    return .option t
  | .result t e => do
    let t ← t.tyIn item
    let e ← e.tyIn item
    return .result t e
  | .tuple ts => do
    let tys ← tysIn item ts
    if 1 ≤ tys.length ∧ tys.length ≤ 8 then some (.product .tuple tys) else none
  | .item name => item name

def tysIn (item : String → Option Ty) : List RustType → Option (List Ty)
  | [] => some []
  | t :: ts => do
    let ty ← t.tyIn item
    let tys ← tysIn item ts
    return ty :: tys

end

/-- The type that an item declares, when the types of the other items are known. -/
def Item.tyIn (item : String → Option Ty) : Item → Option Ty
  | .typeAlias _ target => target.tyIn item
  | .enumeration _ type => some (.enum type)
  | .union name variants => do
    let tys ← tysIn item (variants.map (·.2))
    return .union name tys
  | .reflected _ fields => do
    let tys ← tysIn item (fields.map (·.2))
    -- the macro wants a field
    if tys.isEmpty then none else some (.product .reflected tys)
  | .cppU64Pair _ fields => do
    let tys ← tysIn item (fields.map (·.2))
    return .product .cppU64Pair tys

def Item.isEnumeration : Item → Bool
  | .enumeration _ _ => true
  | _ => false

/-- The type of the item of a name, as far as it is found at the given depth. -/
def itemTy (items : List Item) : ℕ → String → Option Ty
  | depth, name =>
    match items.find? (·.name = name) with
    | none => none
    | some item =>
      if item.isEnumeration then item.tyIn fun _ => none
      else
        match depth with
        | 0 => none
        | depth + 1 => item.tyIn (itemTy items depth)

def Denotes (items : List Item) (t : RustType) (ty : Ty) : Prop :=
  ∃ depth, t.tyIn (itemTy items depth) = some ty

end Cakemaster.Codegen
