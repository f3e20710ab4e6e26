import Cakemaster.Rpc.StructPack
import Mathlib.Data.List.Sort

/-!
# IDL documents

The contract that the code generator reads, the checks of `validate`, and the type literals that are
computed from it at build time. The case conversions of names, the test for an identifier of Rust
and the digest belong to other crates; they are parameters here (`Toolkit`).

`type_literal` and `is_rust_ord` expand names and remember the names that they are inside of. Every
name is expanded once at most on the way down, so the number of declarations bounds the depth. -/

namespace Cakemaster.Codegen

open Wire Rpc

/-! ### Documents -/

inductive IdlType
  | void | bool | i8 | u8 | i16 | u16 | i32 | u32 | i64 | u64 | f32 | f64 | string | binary
  | list (value : IdlType)
  | set (value : IdlType)
  | map (key value : IdlType)
  | named (name : String)
deriving DecidableEq

structure Field where
  id : ℤ
  name : String
  type : IdlType
  optional : Bool
deriving DecidableEq

structure Typedef where
  name : String
  target : IdlType

structure EnumVariant where
  name : String
  value : Int32

structure Enumeration where
  name : String
  variants : List EnumVariant
  repr : EnumRepr

structure Union where
  name : String
  alternatives : List Field
  expected : Bool

structure Structure where
  name : String
  fields : List Field
  cppU64Pair : Bool

structure Function where
  name : String
  wireName : Option String
  attachment : Bool
  returns : IdlType
  parameters : List Field

structure Service where
  name : String
  scope : Option String
  functions : List Function

structure Document where
  rustNamespace : List String
  cppNamespace : Option String
  typedefs : List Typedef
  enums : List Enumeration
  unions : List Union
  structs : List Structure
  services : List Service

/-- `CodegenError::InvalidContract`; the path of the document is the same in all of them. -/
structure InvalidContract where
  message : String
deriving DecidableEq

abbrev Check (α : Type) := Except InvalidContract α

/-- An `if` of the source that returns an error. -/
def require (condition : Prop) [Decidable condition] (message : String) : Check Unit :=
  if condition then .ok () else .error ⟨message⟩

/-- What other crates provide. -/
structure Toolkit where
  upperCamel : String → String
  snake : String → String
  parsesAsIdent : String → Bool
  md5Hash32 : Bytes → UInt32

/-- A raw identifier is the same name. -/
def Toolkit.rustIdent (kit : Toolkit) (name description : String) : Check String := do
  require (kit.parsesAsIdent name = true ∨ kit.parsesAsIdent ("r#" ++ name) = true)
    (description ++ " name " ++ name.quote ++ " is not a Rust identifier")
  return name

/-! ### Type literals -/

def typeInt32 : UInt8 := 1
def typeUint32 : UInt8 := 2
def typeInt64 : UInt8 := 3
def typeUint64 : UInt8 := 4
def typeInt8 : UInt8 := 5
def typeUint8 : UInt8 := 6
def typeInt16 : UInt8 := 7
def typeUint16 : UInt8 := 8
def typeBool : UInt8 := 11
def typeChar8 : UInt8 := 12
def typeFloat32 : UInt8 := 17
def typeFloat64 : UInt8 := 18
def typeString : UInt8 := 128
def typeMap : UInt8 := 130
def typeSet : UInt8 := 131
def typeContainer : UInt8 := 132
def typeOptional : UInt8 := 133
def typeVariant : UInt8 := 134
def typeExpected : UInt8 := 135
def typeMonostate : UInt8 := 250
def typeStruct : UInt8 := 253
def typeEnd : UInt8 := 255

namespace Document

variable (doc : Document)

/-! A map that is collected from a list keeps the last item of a name. -/

def typedef? (name : String) : Option Typedef := doc.typedefs.reverse.find? (·.name = name)

def enum? (name : String) : Option Enumeration := doc.enums.reverse.find? (·.name = name)

def union? (name : String) : Option Union := doc.unions.reverse.find? (·.name = name)

def struct? (name : String) : Option Structure := doc.structs.reverse.find? (·.name = name)

def expandable : List String :=
  doc.typedefs.map (·.name) ++ doc.structs.map (·.name) ++ doc.unions.map (·.name)

end Document

def orderedFields (fields : List Field) : List Field := fields.insertionSort (·.id ≤ ·.id)

def expectedAlternatives (union : Union) : Check (Option Field × Field) :=
  let refuse : Check (Option Field × Field) :=
    .error ⟨"expected union " ++ union.name ++ " must contain `1: <type> value, 2: <type> error`, "
      ++ "or only `1: <type> error` for expected<void, E>"⟩
  match orderedFields union.alternatives with
  | [error] => if error.id = 1 ∧ error.name = "error" then .ok (none, error) else refuse
  | [value, error] =>
    if value.id = 1 ∧ value.name = "value" ∧ error.id = 2 ∧
      error.name = "error" then .ok (some value, error)
    else refuse
  | _ => refuse

/-- `type_literal` without the optional marker, when the literal of a name is known. -/
def literalOf (named : String → Check Bytes) : IdlType → Check Bytes
  | .void => .ok [typeMonostate]
  | .bool => .ok [typeBool]
  | .i8 => .ok [typeInt8]
  | .u8 => .ok [typeUint8]
  | .i16 => .ok [typeInt16]
  | .u16 => .ok [typeUint16]
  | .i32 => .ok [typeInt32]
  | .u32 => .ok [typeUint32]
  | .i64 => .ok [typeInt64]
  | .u64 => .ok [typeUint64]
  | .f32 => .ok [typeFloat32]
  | .f64 => .ok [typeFloat64]
  | .string | .binary => .ok [typeString, typeChar8]
  | .list value => do
    let value ← literalOf named value
    return typeContainer :: value
  | .set value => do
    let value ← literalOf named value
    return typeSet :: value
  | .map key value => do
    let key ← literalOf named key
    let value ← literalOf named value
    return typeMap :: (key ++ value)
  | .named name => named name

/-- The marker of an optional field stands first. -/
def markOptional (optional : Bool) (literal : Bytes) : Bytes :=
  if optional then typeOptional :: literal else literal

def fieldLiterals (named : String → Check Bytes) (fields : List Field) : Check Bytes := do
  let literals ← fields.mapM fun field => do
    let literal ← literalOf named field.type
    return markOptional field.optional literal
  return literals.flatten

def alternativeLiterals (named : String → Check Bytes) (alternatives : List Field) :
    Check Bytes := do
  let literals ← alternatives.mapM fun alternative => literalOf named alternative.type
  return literals.flatten

def structLiteral (named : String → Check Bytes) (structure_ : Structure) : Check Bytes := do
  let fields ← fieldLiterals named (orderedFields structure_.fields)
  return typeStruct :: (fields ++ (if structure_.cppU64Pair then [137, 137] else []) ++ [typeEnd])

def expectedValueLiteral (named : String → Check Bytes) : Option Field → Check Bytes
  | some value => literalOf named value.type
  | none => .ok [typeMonostate]

def unionLiteral (named : String → Check Bytes) (union : Union) : Check Bytes :=
  if union.expected then do
    let (value, error) ← expectedAlternatives union
    let value ← expectedValueLiteral named value
    let error ← literalOf named error.type
    return typeExpected :: (value ++ error)
  else do
    let alternatives ← alternativeLiterals named (orderedFields union.alternatives)
    return typeVariant :: (alternatives ++ [typeEnd])

/-- The branch of `type_literal` for a name inside of the names on the stack. -/
def namedLiteral (doc : Document) : ℕ → List String → String → Check Bytes
  | depth, stack, name =>
    match doc.enum? name with
    | some enumeration =>
      .ok [match enumeration.repr with
        | .i32 => typeInt32
        | .u8 => typeUint8]
    | none =>
      if name ∈ stack then
        .error ⟨"recursive type " ++ name ++ " is not supported by this struct_pack subset"⟩
      else
        match depth with
        | 0 => .error ⟨"unknown type " ++ name⟩
        | depth + 1 =>
          let named := namedLiteral doc depth (name :: stack)
          match doc.typedef? name, doc.struct? name, doc.union? name with
          | some typedef, _, _ => literalOf named typedef.target
          | none, some structure_, _ => structLiteral named structure_
          | none, none, some union => unionLiteral named union
          | none, none, none => .error ⟨"unknown type " ++ name⟩

def typeLiteral (doc : Document) (stack : List String) (type : IdlType) (optional : Bool) :
    Check Bytes := do
  let literal ← literalOf (namedLiteral doc doc.expandable.length stack) type
  return markOptional optional literal

def requestTypeLiteral (doc : Document) (stack : List String) (fields : List Field) : Check Bytes :=
  match orderedFields fields with
  | [field] => typeLiteral doc stack field.type field.optional
  | fields => do
    let literals ← fields.mapM fun field => typeLiteral doc stack field.type field.optional
    return typeStruct :: (literals.flatten ++ [typeEnd])

def hashTypeLiteral (md5Hash32 : Bytes → UInt32) (literal : Bytes) : UInt32 :=
  md5Hash32 literal &&& 0xfffffffe

/-! ### Checks -/

def ensureNonVoid (owner : String) : IdlType → Check Unit
  | .void => .error ⟨"void is not valid inside " ++ owner⟩
  | .list value | .set value => ensureNonVoid owner value
  | .map key value => do
    ensureNonVoid owner key
    ensureNonVoid owner value
  | _ => .ok ()

def validateTypeReferences (known : List String) : IdlType → Check Unit
  | .named name =>
    require (name ∈ known) ("unknown Thrift type " ++ name ++ "; includes are not supported yet")
  | .list value | .set value => validateTypeReferences known value
  | .map key value => do
    validateTypeReferences known key
    validateTypeReferences known value
  | _ => .ok ()

def isRustOrdOf (named : String → Bool) : IdlType → Bool
  | .bool | .i8 | .u8 | .i16 | .u16 | .i32 | .u32 | .i64 | .u64 | .string | .binary => true
  | .list value | .set value => isRustOrdOf named value
  | .map key value => isRustOrdOf named key && isRustOrdOf named value
  | .named name => named name
  | .void | .f32 | .f64 => false

def isRustOrdNamed (doc : Document) : ℕ → List String → String → Bool
  | depth, stack, name =>
    if (doc.enum? name).isSome then true
    else if name ∈ stack then false
    else
      match depth with
      | 0 => false
      | depth + 1 =>
        match doc.typedef? name with
        | none => false
        | some typedef => isRustOrdOf (isRustOrdNamed doc depth (name :: stack)) typedef.target

def isRustOrd (doc : Document) (type : IdlType) : Bool :=
  isRustOrdOf (isRustOrdNamed doc doc.typedefs.length []) type

def validateOrderedContainers (doc : Document) : IdlType → Check Unit
  | .list value => validateOrderedContainers doc value
  | .set value => do
    require (isRustOrd doc value = true) ("Thrift set element type must implement Rust Ord; " ++
      "floating-point and generated struct/union elements are not supported")
    validateOrderedContainers doc value
  | .map key value => do
    require (isRustOrd doc key = true) ("Thrift map key type must implement Rust Ord; " ++
      "floating-point and generated struct/union keys are not supported")
    validateOrderedContainers doc key
    validateOrderedContainers doc value
  | _ => .ok ()

section Validation

variable (kit : Toolkit)

/-- The loop of `validate_fields` behind the given ids and names. -/
def validateFieldsAfter (owner : String) : List ℤ → List String → List Field → Check Unit
  | _, _, [] => .ok ()
  | ids, names, field :: rest => do
    require (field.id ∉ ids) (owner ++ " has duplicate field ID " ++ toString field.id)
    let name := kit.snake field.name
    require (name ∉ names) (owner ++ " has duplicate generated field name " ++ name)
    let _ ← kit.rustIdent name "field"
    ensureNonVoid owner field.type
    validateFieldsAfter owner (field.id :: ids) (name :: names) rest

def validateFields (fields : List Field) (owner : String) : Check Unit :=
  validateFieldsAfter kit owner [] [] fields

/-- The loop of `validate_enum` behind the given names and values. -/
def validateVariantsAfter (enumeration : Enumeration) :
    List String → List (Int32 × String) → List EnumVariant → Check Unit
  | _, _, [] => .ok ()
  | names, values, variant :: rest => do
    require (enumeration.repr = .u8 → 0 ≤ variant.value.toInt ∧ variant.value.toInt < 2 ^ 8)
      ("enum " ++ enumeration.name ++ " value " ++ toString
      variant.value.toInt ++ " does not fit coro_rpc.repr u8")
    let name := kit.upperCamel variant.name
    let _ ← kit.rustIdent name "enum variant"
    require (name ∉ names) ("enum " ++ enumeration.name ++ " has duplicate generated variant name " ++ name)
    match values.lookup variant.value with
    | some existing =>
      .error ⟨"enum " ++ enumeration.name ++ " variants " ++ existing ++ " and " ++ variant.name ++
        " both use value " ++ toString variant.value.toInt⟩
    | none => validateVariantsAfter enumeration (name :: names) ((variant.value, variant.name) :: values) rest

def validateEnum (enumeration : Enumeration) : Check Unit := do
  require (enumeration.variants ≠ []) ("enum " ++ enumeration.name ++ " must contain at least one variant")
  validateVariantsAfter kit enumeration [] [] enumeration.variants

/-- The loop of `validate_union` from the given id on, behind the given names. -/
def validateAlternativesAfter (union : Union) : ℤ → List String → List Field → Check Unit
  | _, _, [] => .ok ()
  | expectedId, names, alternative :: rest => do
    require (alternative.id = expectedId) ("union " ++ union.name ++
      " field IDs must be contiguous from 1; expected " ++ toString
      expectedId ++ ", got " ++ toString alternative.id)
    let name := kit.upperCamel alternative.name
    let _ ← kit.rustIdent name "union variant"
    require (name ∉ names) ("union " ++ union.name ++ " has duplicate generated variant name " ++ name)
    validateAlternativesAfter union (expectedId + 1) (name :: names) rest

def validateUnion (union : Union) : Check Unit := do
  require (union.alternatives ≠ []) ("union " ++ union.name ++ " must contain at least one alternative")
  validateFields kit union.alternatives ("union " ++ union.name)
  if union.expected then do
    let _ ← expectedAlternatives union
    return ()
  else do
    require (union.alternatives.length < 256)
      ("union " ++ union.name ++ " must contain fewer than 256 alternatives")
    validateAlternativesAfter kit union 1 [] (orderedFields union.alternatives)

def validateCppU64Pair (structure_ : Structure) : Check Unit :=
  let valid := match orderedFields structure_.fields with
    | [first, second] =>
      first.id = 1 ∧ second.id = 2 ∧ !first.optional ∧ !second.optional ∧ first.type = .u64 ∧ second.type = .u64
    | _ => false
  require (valid = true) ("struct " ++ structure_.name ++
    " with coro_rpc.cpp_u64_pair must contain exactly two required u64 fields numbered 1 and 2")

def validateStruct (structure_ : Structure) : Check Unit := do
  require (structure_.fields ≠ []) ("struct " ++ structure_.name ++ " must contain at least one field")
  validateFields kit structure_.fields ("struct " ++ structure_.name)
  if structure_.cppU64Pair then validateCppU64Pair structure_ else .ok ()

def registerRustType (names : List String) (name : String) : Check (List String) := do
  let name := kit.upperCamel name
  let _ ← kit.rustIdent name "type"
  require (name ∉ names) ("duplicate generated type name " ++ name)
  return name :: names

/-- A loop of `validate` that registers declarations and checks each of them. -/
def registerAll {α : Type} (nameOf : α → String) (check : α → Check Unit) (names : List String)
    (items : List α) : Check (List String) :=
  items.foldlM (fun names item => do
    let names ← registerRustType kit names (nameOf item)
    check item
    return names) names

def registerTypes (doc : Document) : Check (List String) := do
  let names ← registerAll kit (·.name) (fun typedef => ensureNonVoid "typedef" typedef.target) []
    doc.typedefs
  let names ← registerAll kit (·.name) (validateEnum kit) names doc.enums
  let names ← registerAll kit (·.name) (validateUnion kit) names doc.unions
  registerAll kit (·.name) (validateStruct kit) names doc.structs

def knownTypes (doc : Document) : List String :=
  doc.typedefs.map (·.name) ++ doc.enums.map (·.name) ++ doc.unions.map
    (·.name) ++ doc.structs.map (·.name)

/-- Both checks that `validate` makes of every type that is written in the document. -/
def validateType (doc : Document) (type : IdlType) : Check Unit := do
  validateTypeReferences (knownTypes doc) type
  validateOrderedContainers doc type

def validateDeclaredTypes (doc : Document) : Check Unit := do
  doc.typedefs.forM fun typedef => validateType doc typedef.target
  doc.structs.forM fun structure_ => structure_.fields.forM fun field => validateType doc field.type
  doc.unions.forM fun union => union.alternatives.forM fun alternative =>
    validateType doc alternative.type

def trimColons (name : String) : String :=
  String.ofList ((name.toList.dropWhile (· = ':')).reverse.dropWhile (· = ':')).reverse

def wireName (doc : Document) (service : Service) (function : Function) : String :=
  match function.wireName with
  | some name => name
  | none =>
    let scope := trimColons ((service.scope.or doc.cppNamespace).getD "")
    if scope = "" then function.name else scope ++ "::" ++ function.name

/-- A number as `{:#010x}` shows it. -/
def hexadecimal (n : UInt32) : String :=
  "0x" ++ String.ofList ((List.range 8).reverse.map fun digit => Nat.digitChar (n.toNat / 16 ^ digit % 16))

/-- What the loop over the services has seen. -/
structure Seen where
  generatedItems : List String
  services : List String
  methods : List String
  wireNames : List String
  wireRoutes : List (UInt32 × String)

def generateItemName (seen : Seen) (item : String) : Check Seen := do
  let _ ← kit.rustIdent item "generated service item"
  require (item ∉ seen.generatedItems) ("duplicate generated Rust item " ++ item)
  return { seen with generatedItems := item :: seen.generatedItems }

def validateFunction (doc : Document) (service : Service) (seen : Seen) (function : Function) :
    Check Seen := do
  let method := kit.snake function.name
  require (method ∉ ["new", "connect", "inner", "into_inner"])
    ("service method " ++ function.name ++ " conflicts with generated client API " ++ method)
  require (method ∉ seen.methods)
    ("service " ++ service.name ++ " has duplicate generated method name " ++ method)
  let _ ← kit.rustIdent method "method"
  validateFields kit function.parameters ("method " ++ service.name ++ "::" ++ function.name)
  validateType doc function.returns
  function.parameters.forM fun parameter => validateType doc parameter.type
  require (¬(function.attachment = true ∧
      ∃ parameter ∈ function.parameters, kit.snake parameter.name ∈ ["rpc_attachment",
      "rpc_context"]))
    ("attachment method " ++ service.name ++ "::" ++ function.name ++
      " reserves parameter names rpc_attachment and rpc_context")
  let name := wireName doc service function
  require (name ∉ seen.wireNames) ("duplicate wire method name " ++ name)
  let route := kit.md5Hash32 (utf8Bytes name)
  match seen.wireRoutes.lookup route with
  | some existing =>
    .error ⟨"route ID collision " ++ hexadecimal route ++ " between " ++ existing ++ " and " ++ name⟩
  | none =>
    return { seen with
      methods := method :: seen.methods
      wireNames := name :: seen.wireNames
      wireRoutes := (route, name) :: seen.wireRoutes }

def validateService (doc : Document) (seen : Seen) (service : Service) : Check Seen := do
  let name := kit.upperCamel service.name
  require (name ∉ seen.services) ("duplicate generated service name " ++ name)
  let seen ← [name, name ++ "Client", name ++ "Server"].foldlM (generateItemName kit)
    { seen with services := name :: seen.services }
  service.functions.foldlM (validateFunction kit doc service) { seen with methods := [] }

def validateLiterals (doc : Document) : Check Unit := do
  doc.typedefs.forM fun typedef => do
    let _ ← typeLiteral doc [typedef.name] typedef.target false
    return ()
  doc.structs.forM fun structure_ => (orderedFields structure_.fields).forM fun field => do
    let _ ← typeLiteral doc [structure_.name] field.type field.optional
    return ()
  doc.unions.forM fun union => do
    let _ ← typeLiteral doc [] (.named union.name) false
    return ()
  doc.services.forM fun service => service.functions.forM fun function => do
    let _ ← requestTypeLiteral doc [] function.parameters
    let _ ← typeLiteral doc [] function.returns false
    return ()

def validate (doc : Document) : Check Unit := do
  let generatedItems ← registerTypes kit doc
  validateDeclaredTypes doc
  let _ ← doc.services.foldlM (validateService kit doc) ⟨generatedItems, [], [], [], []⟩
  validateLiterals doc

end Validation

end Cakemaster.Codegen
