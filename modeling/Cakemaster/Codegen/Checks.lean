import Cakemaster.Codegen.Generate

/-!
# What the checks ensure

A document that passes `validate` generates its items: every name that is written is an identifier,
and no two declarations get the same Rust name.
-/

namespace Cakemaster.Codegen

open Wire Rpc List

variable {enumeration : Enumeration} {union : Union} {structure_ : Structure} {fields : List Field}
    {item : Item} {names : List String}

/-! ### Results of checks -/

section Results

variable {α β : Type} {f : α → Check β}

theorem bind_eq_ok : x >>= f = .ok b ↔ ∃ a, x = .ok a ∧ f a = .ok b := by
  cases x with
  | error err => simp [bind, Except.bind]
  | ok a => simp [bind, Except.bind]

theorem pure_eq_ok : (pure a : Check α) = .ok b ↔ a = b := by simp [pure, Except.pure]

@[simp] theorem require_eq_ok {condition : Prop} [Decidable condition] :
    require condition message = .ok u ↔ condition := by
  unfold require
  split <;> simp_all

theorem forM_eq_ok {l : List α} {f : α → Check Unit} (h : l.forM f = .ok ()) :
    ∀ a ∈ l, f a = .ok () := by
  induction l with
  | nil => simp
  | cons a rest ih =>
    obtain ⟨_, hfirst, hrest⟩ := bind_eq_ok.mp h
    exact forall_mem_cons.mpr ⟨hfirst, ih hrest⟩

theorem foldlM_eq_ok {l : List α} {f : β → α → Check β} (h : l.foldlM f b = .ok b') :
    ∀ a ∈ l, ∃ c c', f c a = .ok c' := by
  induction l generalizing b with
  | nil => simp
  | cons a rest ih =>
    rw [foldlM_cons] at h
    obtain ⟨c, hfirst, hrest⟩ := bind_eq_ok.mp h
    exact forall_mem_cons.mpr ⟨⟨b, c, hfirst⟩, ih hrest⟩

theorem mapM_eq_map {l : List α} {g : α → β} (h : ∀ a ∈ l, f a = .ok (g a)) :
    l.mapM f = .ok (l.map g) := by
  induction l with
  | nil => rfl
  | cons a rest ih =>
    obtain ⟨hfirst, hrest⟩ := forall_mem_cons.mp h
    rw [mapM_cons, hfirst, ih hrest]
    rfl

theorem mapM_forall₂ {l : List α} {R : α → β → Prop} (h : ∀ a ∈ l, ∃ b, f a = .ok b ∧ R a b) :
    ∃ l', l.mapM f = .ok l' ∧ List.Forall₂ R l l' := by
  induction l with
  | nil => exact ⟨[], rfl, .nil⟩
  | cons a rest ih =>
    obtain ⟨⟨b, hfirst, hb⟩, hrest⟩ := forall_mem_cons.mp h
    obtain ⟨l', hmap, hall⟩ := ih hrest
    refine ⟨b :: l', ?_, .cons hb hall⟩
    rw [mapM_cons, hfirst, hmap]
    rfl

end Results

/-! ### Names -/

variable {kit : Toolkit} {doc : Document}

def Toolkit.IsIdent (kit : Toolkit) (name : String) : Prop :=
  kit.parsesAsIdent name = true ∨ kit.parsesAsIdent ("r#" ++ name) = true

theorem rustIdent_eq_ok {name description ident : String} :
    kit.rustIdent name description = .ok ident ↔ kit.IsIdent name ∧ name = ident := by
  simp only [Toolkit.rustIdent, bind_eq_ok, require_eq_ok, pure_eq_ok, exists_const,
    Toolkit.IsIdent]

theorem Toolkit.IsIdent.rustIdent (h : kit.IsIdent name) (description : String) :
    kit.rustIdent name description = .ok name :=
  rustIdent_eq_ok.mpr ⟨h, rfl⟩

theorem registerRustType_eq_ok {names names' : List String} {name : String} :
    registerRustType kit names name = .ok names' ↔
      kit.IsIdent (kit.upperCamel name) ∧ kit.upperCamel name ∉ names ∧
      kit.upperCamel name :: names = names' := by
  simp only [registerRustType, bind_eq_ok, require_eq_ok, pure_eq_ok, rustIdent_eq_ok, exists_const]
  tauto

theorem registerAll_eq_ok {α : Type} {nameOf : α → String} {check : α → Check Unit}
    {names' : List String} {items : List α}
    (h : registerAll kit nameOf check names items = .ok names') (hnames : names.Nodup) :
    names' = (items.map fun item => kit.upperCamel (nameOf item)).reverse ++ names ∧ names'.Nodup ∧
      ∀ item ∈ items, kit.IsIdent (kit.upperCamel (nameOf item)) ∧ check item = .ok () := by
  induction items generalizing names with
  | nil =>
    cases h
    exact ⟨rfl, hnames, by simp⟩
  | cons item rest ih =>
    rw [registerAll, foldlM_cons] at h
    obtain ⟨_, hfirst, hrest⟩ := bind_eq_ok.mp h
    obtain ⟨_, hregister, hfirst⟩ := bind_eq_ok.mp hfirst
    obtain ⟨_, hchk, hfirst⟩ := bind_eq_ok.mp hfirst
    obtain rfl := pure_eq_ok.mp hfirst
    obtain ⟨hident, hnew, rfl⟩ := registerRustType_eq_ok.mp hregister
    obtain ⟨heq, hnd, hall⟩ := ih hrest (nodup_cons.mpr ⟨hnew, hnames⟩)
    refine ⟨?_, hnd, forall_mem_cons.mpr ⟨⟨hident, hchk⟩, hall⟩⟩
    rw [heq, map_cons, reverse_cons, append_assoc, singleton_append]

/-! ### Valid documents -/

/-- What `validate` has checked of a method. -/
structure ValidFunction (kit : Toolkit) (doc : Document) (function : Function) : Prop where
  ident : kit.IsIdent (kit.snake function.name)
  parameters : ∃ owner, validateFields kit function.parameters owner = .ok ()
  returns : validateType doc function.returns = .ok ()
  types : ∀ parameter ∈ function.parameters, validateType doc parameter.type = .ok ()
  literals : ∃ request response, requestTypeLiteral doc [] function.parameters = .ok request ∧
    typeLiteral doc [] function.returns false = .ok response

structure ValidDocument (kit : Toolkit) (doc : Document) : Prop where
  nodup : ((knownTypes doc).map kit.upperCamel).Nodup
  ident : ∀ name ∈ knownTypes doc, kit.IsIdent (kit.upperCamel name)
  enums : ∀ enumeration ∈ doc.enums, validateEnum kit enumeration = .ok ()
  unions : ∀ union ∈ doc.unions, validateUnion kit union = .ok ()
  structs : ∀ structure_ ∈ doc.structs, validateStruct kit structure_ = .ok ()
  targets : ∀ typedef ∈ doc.typedefs, validateType doc typedef.target = .ok ()
  fields : ∀ structure_ ∈ doc.structs, ∀ field ∈ structure_.fields,
    validateType doc field.type = .ok ()
  alternatives : ∀ union ∈ doc.unions, ∀ alternative ∈ union.alternatives,
    validateType doc alternative.type = .ok ()
  functions : ∀ service ∈ doc.services, ∀ function ∈ service.functions,
    ValidFunction kit doc function

theorem validateFunction_eq_ok {function : Function}
    (h : validateFunction kit doc service seen function = .ok seen')
    (hlits : ∃ request response, requestTypeLiteral doc [] function.parameters = .ok request ∧
      typeLiteral doc [] function.returns false = .ok response) : ValidFunction kit doc function := by
  obtain ⟨u, -, h⟩ := bind_eq_ok.mp h
  obtain ⟨u, -, h⟩ := bind_eq_ok.mp h
  obtain ⟨_, hident, h⟩ := bind_eq_ok.mp h
  obtain ⟨u, hparameters, h⟩ := bind_eq_ok.mp h
  obtain ⟨u, hreturns, h⟩ := bind_eq_ok.mp h
  obtain ⟨u, htypes, h⟩ := bind_eq_ok.mp h
  exact ⟨(rustIdent_eq_ok.mp hident).1, ⟨_, hparameters⟩, hreturns, forM_eq_ok htypes, hlits⟩

theorem validateService_eq_ok {service : Service}
    (h : validateService kit doc seen service = .ok seen') :
    ∀ function ∈ service.functions, ∃ seen seen',
    validateFunction kit doc service seen function = .ok seen' := by
  obtain ⟨_, -, h⟩ := bind_eq_ok.mp h
  obtain ⟨_, -, h⟩ := bind_eq_ok.mp h
  exact foldlM_eq_ok h

theorem validateLiterals_eq_ok (h : validateLiterals doc = .ok ()) :
    ∀ service ∈ doc.services, ∀ function ∈ service.functions, ∃ request response,
      requestTypeLiteral doc [] function.parameters = .ok request ∧
        typeLiteral doc [] function.returns false = .ok response := by
  obtain ⟨u, -, h⟩ := bind_eq_ok.mp h
  obtain ⟨u, -, h⟩ := bind_eq_ok.mp h
  obtain ⟨u, -, h⟩ := bind_eq_ok.mp h
  intro service hservice function hfun
  have hlits := forM_eq_ok (forM_eq_ok h service hservice) function hfun
  obtain ⟨request, hreq, hlits⟩ := bind_eq_ok.mp hlits
  obtain ⟨response, hresponse, -⟩ := bind_eq_ok.mp hlits
  exact ⟨request, response, hreq, hresponse⟩

theorem registerTypes_eq_ok (h : registerTypes kit doc = .ok names) :
    ((knownTypes doc).map kit.upperCamel).Nodup ∧ (∀ name ∈ knownTypes doc, kit.IsIdent
      (kit.upperCamel name)) ∧ (∀ enumeration ∈ doc.enums, validateEnum kit enumeration = .ok ()) ∧
      (∀ union ∈ doc.unions, validateUnion kit union = .ok ()) ∧
      ∀ structure_ ∈ doc.structs, validateStruct kit structure_ = .ok () := by
  obtain ⟨_, htypedefs, h⟩ := bind_eq_ok.mp h
  obtain ⟨_, henums, h⟩ := bind_eq_ok.mp h
  obtain ⟨_, hunions, h⟩ := bind_eq_ok.mp h
  obtain ⟨heq₁, hnd₁, htypedefs⟩ := registerAll_eq_ok htypedefs nodup_nil
  obtain ⟨heq₂, hnd₂, henums⟩ := registerAll_eq_ok henums hnd₁
  obtain ⟨heq₃, hnd₃, hunions⟩ := registerAll_eq_ok hunions hnd₂
  obtain ⟨heq₄, hnd₄, hstructs⟩ := registerAll_eq_ok h hnd₃
  have hnames : names = ((knownTypes doc).map kit.upperCamel).reverse := by
    rw [heq₄, heq₃, heq₂, heq₁]
    simp [knownTypes, Function.comp_def]
  refine ⟨nodup_reverse.mp (hnames ▸ hnd₄), ?_, fun e he => (henums e he).2,
    fun u hu => (hunions u hu).2, fun s hs => (hstructs s hs).2⟩
  intro name hname
  simp only [knownTypes, mem_append, mem_map] at hname
  rcases hname with ((⟨t, ht, rfl⟩ | ⟨e, he, rfl⟩) | ⟨u, hu, rfl⟩) | ⟨s, hs, rfl⟩
  · exact (htypedefs t ht).1
  · exact (henums e he).1
  · exact (hunions u hu).1
  · exact (hstructs s hs).1

theorem validate_eq_ok (h : validate kit doc = .ok ()) : ValidDocument kit doc := by
  obtain ⟨_, hregister, h⟩ := bind_eq_ok.mp h
  obtain ⟨u, hdeclared, h⟩ := bind_eq_ok.mp h
  obtain ⟨_, hservices, hlits⟩ := bind_eq_ok.mp h
  obtain ⟨hnd, hident, henums, hunions, hstructs⟩ := registerTypes_eq_ok hregister
  obtain ⟨u, htargets, hdeclared⟩ := bind_eq_ok.mp hdeclared
  obtain ⟨u, hflds, halts⟩ := bind_eq_ok.mp hdeclared
  refine ⟨hnd, hident, henums, hunions, hstructs, forM_eq_ok htargets,
    fun s hs => forM_eq_ok (forM_eq_ok hflds s hs), fun u hu =>
    forM_eq_ok (forM_eq_ok halts u hu), ?_⟩
  intro service hservice function hfun
  obtain ⟨_, _, hvld⟩ := foldlM_eq_ok hservices service hservice
  obtain ⟨_, _, hvld⟩ := validateService_eq_ok hvld function hfun
  exact validateFunction_eq_ok hvld (validateLiterals_eq_ok hlits service hservice function hfun)

/-! ### Generation -/

theorem mem_orderedFields : field ∈ orderedFields fields ↔ field ∈ fields :=
  mem_insertionSort _

theorem length_orderedFields (fields : List Field) :
    (orderedFields fields).length = fields.length :=
  length_insertionSort _ _

/-- The Rust type of a type whose names are declared. -/
def plainRustType (kit : Toolkit) : IdlType → RustType
  | .void => .unit
  | .bool => .bool
  | .i8 => .scalar .i8
  | .u8 => .scalar .u8
  | .i16 => .scalar .i16
  | .u16 => .scalar .u16
  | .i32 => .scalar .i32
  | .u32 => .scalar .u32
  | .i64 => .scalar .i64
  | .u64 => .scalar .u64
  | .f32 => .scalar .f32
  | .f64 => .scalar .f64
  | .string => .string
  | .binary => .byteString
  | .list value => .vec (plainRustType kit value)
  | .set value => .btreeSet (plainRustType kit value)
  | .map key value => .btreeMap (plainRustType kit key) (plainRustType kit value)
  | .named name => .item (kit.upperCamel name)

def fieldRustType (kit : Toolkit) (field : Field) : RustType :=
  if field.optional then .option (plainRustType kit field.type) else plainRustType kit field.type

theorem rustTypeOf_eq (hident : ∀ name ∈ knownTypes doc, kit.IsIdent (kit.upperCamel name))
    {type : IdlType} (h : validateTypeReferences (knownTypes doc) type = .ok ()) :
    rustTypeOf kit type = .ok (plainRustType kit type) := by
  induction type with
  | list value ih | set value ih =>
    rw [rustTypeOf, ih h]
    rfl
  | map key value ihkey ihvalue =>
    obtain ⟨_, hkey, hval⟩ := bind_eq_ok.mp h
    rw [rustTypeOf, ihkey hkey, ihvalue hval]
    rfl
  | named name =>
    have hname : name ∈ knownTypes doc := require_eq_ok.mp h
    rw [rustTypeOf, (hident name hname).rustIdent]
    rfl
  | _ => rfl

theorem validateFieldsAfter_eq_ok {owner : String} {ids : List ℤ}
    (h : validateFieldsAfter kit owner ids names fields = .ok ()) :
    ∀ field ∈ fields, kit.IsIdent (kit.snake field.name) := by
  induction fields generalizing ids names with
  | nil => simp
  | cons field rest ih =>
    obtain ⟨u, -, h⟩ := bind_eq_ok.mp h
    obtain ⟨u, -, h⟩ := bind_eq_ok.mp h
    obtain ⟨name, hident, h⟩ := bind_eq_ok.mp h
    obtain ⟨u, -, h⟩ := bind_eq_ok.mp h
    exact forall_mem_cons.mpr ⟨(rustIdent_eq_ok.mp hident).1, ih h⟩

theorem validateVariantsAfter_eq_ok {values : List (Int32 × String)}
    {variants : List EnumVariant}
    (h : validateVariantsAfter kit enumeration names values variants = .ok ()) :
    ∀ variant ∈ variants, kit.IsIdent (kit.upperCamel variant.name) ∧
    enumeration.repr.Fits variant.value.toInt := by
  induction variants generalizing names values with
  | nil => simp
  | cons variant rest ih =>
    obtain ⟨u, hfits, h⟩ := bind_eq_ok.mp h
    obtain ⟨name, hident, h⟩ := bind_eq_ok.mp h
    obtain ⟨u, -, h⟩ := bind_eq_ok.mp h
    have hvariant : enumeration.repr.Fits variant.value.toInt := by
      cases hrepr : enumeration.repr with
      | i32 => exact ⟨variant.value.le_toInt, variant.value.toInt_lt⟩
      | u8 => exact require_eq_ok.mp hfits hrepr
    split at h
    · cases h
    · exact forall_mem_cons.mpr ⟨⟨(rustIdent_eq_ok.mp hident).1, hvariant⟩, ih h⟩

theorem validateAlternativesAfter_eq_ok {expectedId : ℤ} {alternatives : List Field}
    (h : validateAlternativesAfter kit union expectedId names alternatives = .ok ()) :
    ∀ alternative ∈ alternatives, kit.IsIdent (kit.upperCamel alternative.name) := by
  induction alternatives generalizing expectedId names with
  | nil => simp
  | cons alternative rest ih =>
    obtain ⟨u, -, h⟩ := bind_eq_ok.mp h
    obtain ⟨name, hident, h⟩ := bind_eq_ok.mp h
    obtain ⟨u, -, h⟩ := bind_eq_ok.mp h
    exact forall_mem_cons.mpr ⟨(rustIdent_eq_ok.mp hident).1, ih h⟩

theorem expectedAlternatives_mem (h : expectedAlternatives union = .ok (value, error)) :
    error ∈ union.alternatives ∧ ∀ field ∈ value, field ∈ union.alternatives := by
  simp only [expectedAlternatives] at h
  split at h
  next only hflds =>
    split at h
    · cases h
      exact ⟨mem_orderedFields.mp (by rw [hflds]; exact mem_singleton_self _), nofun⟩
    · cases h
  next first second hflds =>
    split at h
    · cases h
      refine ⟨mem_orderedFields.mp (by rw [hflds]; simp), ?_⟩
      intro field hfield
      cases Option.mem_some.mp hfield
      exact mem_orderedFields.mp (by rw [hflds]; simp)
    · cases h
  next => cases h

/-! What the generator writes for each declaration. -/

def TypedefItem (kit : Toolkit) (typedef : Typedef) (item : Item) : Prop :=
  item = .typeAlias (kit.upperCamel typedef.name) (plainRustType kit typedef.target)

def EnumItem (kit : Toolkit) (enumeration : Enumeration) (item : Item) : Prop :=
  ∃ variants type, item = .enumeration variants type ∧ type.name = kit.upperCamel enumeration.name ∧
    type.repr = enumeration.repr

def UnionItem (kit : Toolkit) (union : Union) (item : Item) : Prop :=
  if union.expected then
    ∃ value error, expectedAlternatives union = .ok (value, error) ∧
      item = .typeAlias (kit.upperCamel union.name)
        (.result (value.elim .unit fun value => plainRustType kit value.type) (plainRustType kit error.type))
  else
    item = .union (kit.upperCamel union.name) ((orderedFields union.alternatives).map fun alternative =>
      (kit.upperCamel alternative.name, plainRustType kit alternative.type))

def StructItem (kit : Toolkit) (structure_ : Structure) (item : Item) : Prop :=
  let fields := (orderedFields structure_.fields).map fun field =>
    (kit.snake field.name, fieldRustType kit field)
  item = if structure_.cppU64Pair then .cppU64Pair (kit.upperCamel structure_.name) fields
    else .reflected (kit.upperCamel structure_.name) fields

structure ItemsOf (kit : Toolkit) (doc : Document) (items : List Item) : Prop where
  names : items.map Item.name = (knownTypes doc).map kit.upperCamel
  typedefs : ∀ typedef ∈ doc.typedefs, ∃ item ∈ items, TypedefItem kit typedef item
  enums : ∀ enumeration ∈ doc.enums, ∃ item ∈ items, EnumItem kit enumeration item
  unions : ∀ union ∈ doc.unions, ∃ item ∈ items, UnionItem kit union item
  structs : ∀ structure_ ∈ doc.structs, ∃ item ∈ items, StructItem kit structure_ item

theorem UnionItem.name_eq (h : UnionItem kit union item) :
    item.name = kit.upperCamel union.name := by
  unfold UnionItem at h
  split at h
  · obtain ⟨_, _, -, rfl⟩ := h
    rfl
  · rw [h]
    rfl

theorem StructItem.name_eq (h : StructItem kit structure_ item) :
    item.name = kit.upperCamel structure_.name := by
  rw [h]
  split <;> rfl

theorem EnumItem.name_eq (h : EnumItem kit enumeration item) :
    item.name = kit.upperCamel enumeration.name := by
  obtain ⟨_, _, rfl, hname, -⟩ := h
  exact hname

theorem typedef_known (h : typedef ∈ doc.typedefs) : typedef.name ∈ knownTypes doc := by
  simp only [knownTypes, mem_append, mem_map]
  exact .inl (.inl (.inl ⟨typedef, h, rfl⟩))

theorem enum_known (h : enumeration ∈ doc.enums) : enumeration.name ∈ knownTypes doc := by
  simp only [knownTypes, mem_append, mem_map]
  exact .inl (.inl (.inr ⟨enumeration, h, rfl⟩))

theorem union_known (h : union ∈ doc.unions) : union.name ∈ knownTypes doc := by
  simp only [knownTypes, mem_append, mem_map]
  exact .inl (.inr ⟨union, h, rfl⟩)

theorem struct_known (h : structure_ ∈ doc.structs) : structure_.name ∈ knownTypes doc := by
  simp only [knownTypes, mem_append, mem_map]
  exact .inr ⟨structure_, h, rfl⟩

theorem forall₂_map_eq {α β : Type} {R : α → β → Prop} {f : α → String} {g : β → String}
    {l : List α} {l' : List β} (h : List.Forall₂ R l l') (hR : ∀ a b, R a b → g b = f a) :
    l'.map g = l.map f := by
  induction h with
  | nil => rfl
  | cons hab _ ih => rw [map_cons, map_cons, hR _ _ hab, ih]

theorem forall₂_exists {α β : Type} {R : α → β → Prop} {l : List α} {l' : List β}
    (h : List.Forall₂ R l l') :
    ∀ a ∈ l, ∃ b ∈ l', R a b := by
  induction h with
  | nil => simp
  | cons hab _ ih =>
    refine forall_mem_cons.mpr ⟨⟨_, mem_cons_self, hab⟩, ?_⟩
    intro a ha
    obtain ⟨b, hb, hr⟩ := ih a ha
    exact ⟨b, mem_cons_of_mem _ hb, hr⟩

namespace ValidDocument

variable (hdoc : ValidDocument kit doc)

include hdoc

theorem rustType_eq {type : IdlType} (h : validateType doc type = .ok ()) (optional : Bool) :
    rustType kit type optional =
      .ok (if optional then .option (plainRustType kit type) else plainRustType kit type) := by
  obtain ⟨_, hrfs, -⟩ := bind_eq_ok.mp h
  rw [rustType, rustTypeOf_eq hdoc.ident hrfs]
  cases optional <;> rfl

theorem fieldTypes_eq (h : ∀ field ∈ fields, validateType doc field.type = .ok ()) :
    (orderedFields fields).mapM (fun field => rustType kit field.type field.optional) =
      .ok ((orderedFields fields).map (fieldRustType kit)) :=
  mapM_eq_map fun field hfield =>
    hdoc.rustType_eq (h field (mem_orderedFields.mp hfield)) field.optional

theorem generateTypedef_eq {typedef : Typedef} (h : typedef ∈ doc.typedefs) :
    ∃ item, generateTypedef kit typedef = .ok item ∧ TypedefItem kit typedef item := by
  have hident := hdoc.ident typedef.name (typedef_known h)
  have htarget := hdoc.rustType_eq (hdoc.targets typedef h) false
  exact ⟨_, bind_eq_ok.mpr ⟨_, hident.rustIdent _, bind_eq_ok.mpr ⟨_, htarget, rfl⟩⟩, rfl⟩

theorem generateEnum_eq (h : enumeration ∈ doc.enums) :
    ∃ item, generateEnum kit enumeration = .ok item ∧ EnumItem kit enumeration item := by
  have hident := hdoc.ident enumeration.name (enum_known h)
  obtain ⟨_, -, hvld⟩ := bind_eq_ok.mp (hdoc.enums enumeration h)
  have hvariants := validateVariantsAfter_eq_ok hvld
  have hnames : enumeration.variants.mapM
      (fun variant => kit.rustIdent (kit.upperCamel variant.name) "enum variant") =
      .ok (enumeration.variants.map fun variant => kit.upperCamel variant.name) :=
    mapM_eq_map fun variant hvariant => (hvariants variant hvariant).1.rustIdent "enum variant"
  have hfits : ∀ value ∈ enumeration.variants.map (·.value.toInt), enumeration.repr.Fits value := by
    intro value hval
    obtain ⟨variant, hvariant, rfl⟩ := mem_map.mp hval
    exact (hvariants variant hvariant).2
  exact ⟨_, bind_eq_ok.mpr ⟨_, hident.rustIdent _, bind_eq_ok.mpr ⟨_, hnames, dif_pos hfits⟩⟩,
    _, ⟨kit.upperCamel enumeration.name, enumeration.repr, _, hfits⟩, rfl, rfl, rfl⟩

theorem generateUnion_eq (h : union ∈ doc.unions) :
    ∃ item, generateUnion kit union = .ok item ∧ UnionItem kit union item := by
  have hident := hdoc.ident union.name (union_known h)
  obtain ⟨u, -, hvld⟩ := bind_eq_ok.mp (hdoc.unions union h)
  obtain ⟨u, -, hvld⟩ := bind_eq_ok.mp hvld
  have htypes := hdoc.alternatives union h
  by_cases hexp : union.expected = true
  · rw [if_pos hexp] at hvld
    obtain ⟨⟨value, error⟩, halts, -⟩ := bind_eq_ok.mp hvld
    obtain ⟨herro, hval⟩ := expectedAlternatives_mem halts
    have herrorType := hdoc.rustType_eq (htypes error herro) false
    have hvalueType : expectedValueType kit value = .ok
        (value.elim .unit fun value => plainRustType kit value.type) := by
      cases value with
      | none => rfl
      | some value => exact hdoc.rustType_eq (htypes value (hval value rfl)) false
    have hitem : generateUnion kit union = .ok (.typeAlias (kit.upperCamel union.name)
        (.result (value.elim .unit fun value => plainRustType kit value.type)
        (plainRustType kit error.type))) := by
      refine bind_eq_ok.mpr ⟨_, hident.rustIdent _, ?_⟩
      rw [if_pos hexp]
      exact bind_eq_ok.mpr ⟨_, halts, bind_eq_ok.mpr ⟨_, hvalueType, bind_eq_ok.mpr ⟨_, herrorType, rfl⟩⟩⟩
    refine ⟨_, hitem, ?_⟩
    rw [UnionItem, if_pos hexp]
    exact ⟨value, error, halts, rfl⟩
  rw [if_neg hexp] at hvld
  obtain ⟨u, hlth, hvld⟩ := bind_eq_ok.mp hvld
  have hnames : (orderedFields union.alternatives).mapM
        (fun alternative => kit.rustIdent (kit.upperCamel alternative.name) "union variant") =
      .ok ((orderedFields union.alternatives).map fun alternative => kit.upperCamel alternative.name) :=
    mapM_eq_map fun alternative halt =>
      (validateAlternativesAfter_eq_ok hvld alternative halt).rustIdent "union variant"
  have hvariants : (orderedFields union.alternatives).mapM (fun alternative => rustType kit
      alternative.type false) = .ok ((orderedFields union.alternatives).map fun alternative =>
      plainRustType kit alternative.type) :=
    mapM_eq_map fun alternative halt =>
      hdoc.rustType_eq (htypes alternative (mem_orderedFields.mp halt)) false
  have hindices : require ((orderedFields union.alternatives).length ≤ 256)
      "unions are validated to have fewer than 256 fields" = .ok () := by
    rw [require_eq_ok, length_orderedFields]
    exact (require_eq_ok.mp hlth).le
  have hitem : generateUnion kit union = .ok (.union (kit.upperCamel union.name)
      ((orderedFields union.alternatives).map fun alternative =>
        (kit.upperCamel alternative.name, plainRustType kit alternative.type))) := by
    refine bind_eq_ok.mpr ⟨_, hident.rustIdent _, ?_⟩
    rw [if_neg hexp]
    refine bind_eq_ok.mpr ⟨_, hnames, bind_eq_ok.mpr ⟨_, hvariants, bind_eq_ok.mpr ⟨_, hindices, ?_⟩⟩⟩
    rw [zip_map']
    rfl
  refine ⟨_, hitem, ?_⟩
  rw [UnionItem, if_neg hexp]

theorem generateStruct_eq (h : structure_ ∈ doc.structs) :
    ∃ item, generateStruct kit structure_ = .ok item ∧ StructItem kit structure_ item := by
  have hident := hdoc.ident structure_.name (struct_known h)
  obtain ⟨u, -, hvld⟩ := bind_eq_ok.mp (hdoc.structs structure_ h)
  obtain ⟨u, hflds, -⟩ := bind_eq_ok.mp hvld
  have hnames : (orderedFields structure_.fields).mapM
      (fun field => kit.rustIdent (kit.snake field.name) "field") =
      .ok ((orderedFields structure_.fields).map fun field => kit.snake field.name) :=
    mapM_eq_map fun field hfield =>
      (validateFieldsAfter_eq_ok hflds field (mem_orderedFields.mp hfield)).rustIdent "field"
  refine ⟨_, bind_eq_ok.mpr ⟨_, hident.rustIdent _, bind_eq_ok.mpr ⟨_, hnames,
    bind_eq_ok.mpr ⟨_, hdoc.fieldTypes_eq (hdoc.fields structure_ h), ?_⟩⟩⟩, rfl⟩
  rw [zip_map']
  rfl

theorem generateItems_eq : ∃ items, generateItems kit doc = .ok items ∧ ItemsOf kit doc items := by
  obtain ⟨typedefs, htypedefs, hall₁⟩ := mapM_forall₂ fun t ht => hdoc.generateTypedef_eq ht
  obtain ⟨enums, henums, hall₂⟩ := mapM_forall₂ fun e he => hdoc.generateEnum_eq he
  obtain ⟨unions, hunions, hall₃⟩ := mapM_forall₂ fun u hu => hdoc.generateUnion_eq hu
  obtain ⟨structs, hstructs, hall₄⟩ := mapM_forall₂ fun s hs => hdoc.generateStruct_eq hs
  refine ⟨typedefs ++ enums ++ unions ++ structs, bind_eq_ok.mpr ⟨_, htypedefs, bind_eq_ok.mpr ⟨_, henums,
    bind_eq_ok.mpr ⟨_, hunions, bind_eq_ok.mpr ⟨_, hstructs, rfl⟩⟩⟩⟩, ?_, ?_, ?_, ?_, ?_⟩
  · have h₁ := forall₂_map_eq (f := fun t => kit.upperCamel t.name) (g := Item.name) hall₁
      fun t item h => by rw [h]; rfl
    have h₂ := forall₂_map_eq (f := fun e => kit.upperCamel e.name) (g := Item.name) hall₂
      fun e item h => h.name_eq
    have h₃ := forall₂_map_eq (f := fun u => kit.upperCamel u.name) (g := Item.name) hall₃
      fun u item h => h.name_eq
    have h₄ := forall₂_map_eq (f := fun s => kit.upperCamel s.name) (g := Item.name) hall₄
      fun s item h => h.name_eq
    simp only [knownTypes, map_append, map_map, h₁, h₂, h₃, h₄]
    rfl
  · intro t ht
    obtain ⟨item, hmem, hitem⟩ := forall₂_exists hall₁ t ht
    exact ⟨item, by simp [hmem], hitem⟩
  · intro e he
    obtain ⟨item, hmem, hitem⟩ := forall₂_exists hall₂ e he
    exact ⟨item, by simp [hmem], hitem⟩
  · intro u hu
    obtain ⟨item, hmem, hitem⟩ := forall₂_exists hall₃ u hu
    exact ⟨item, by simp [hmem], hitem⟩
  · intro s hs
    obtain ⟨item, hmem, hitem⟩ := forall₂_exists hall₄ s hs
    exact ⟨item, by simp [hmem], hitem⟩

end ValidDocument

end Cakemaster.Codegen
