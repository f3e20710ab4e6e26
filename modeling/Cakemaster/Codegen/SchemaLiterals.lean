import Cakemaster.Codegen.Checks

/-!
# Agreement of the schema literals

The literals that are computed from the document at build time are those of the generated types.
Expanding a declared name on one side and unfolding the item of that name on the other
go hand in hand.
-/

namespace Cakemaster.Codegen

open Wire Rpc List

variable {kit : Toolkit} {doc : Document} {items : List Item}
variable {named : String → Check Bytes} {item : String → Option Ty} {name : String} {depth : ℕ}
    {ty : Ty} {literal : Bytes}

/-! ### Denotation -/

mutual

theorem tyIn_mono (h : ∀ name ty, item name = some ty → item' name = some ty)
    (t : RustType) (ty : Ty) (ht : t.tyIn item = some ty) : t.tyIn item' = some ty := by
  cases t with
  | unit | bool | scalar | string | byteString => exact ht
  | vec t | option t =>
    obtain ⟨ty', ht', hty⟩ := Option.bind_eq_some_iff.mp ht
    exact Option.bind_eq_some_iff.mpr ⟨ty', tyIn_mono h t ty' ht', hty⟩
  | btreeSet t =>
    obtain ⟨ty', ht', hty⟩ := Option.bind_eq_some_iff.mp ht
    exact Option.bind_eq_some_iff.mpr ⟨ty', tyIn_mono h t ty' ht', hty⟩
  | btreeMap k v | result k v =>
    obtain ⟨kty, hk, hrest⟩ := Option.bind_eq_some_iff.mp ht
    obtain ⟨vty, hv, hty⟩ := Option.bind_eq_some_iff.mp hrest
    exact Option.bind_eq_some_iff.mpr ⟨kty, tyIn_mono h k kty hk,
      Option.bind_eq_some_iff.mpr ⟨vty, tyIn_mono h v vty hv, hty⟩⟩
  | tuple ts =>
    obtain ⟨tys, hts, hty⟩ := Option.bind_eq_some_iff.mp ht
    exact Option.bind_eq_some_iff.mpr ⟨tys, tysIn_mono h ts tys hts, hty⟩
  | item name => exact h name ty ht

theorem tysIn_mono (h : ∀ name ty, item name = some ty → item' name = some ty)
    (ts : List RustType) (tys : List Ty) (hts : tysIn item ts = some tys) :
    tysIn item' ts = some tys := by
  cases ts with
  | nil => exact hts
  | cons t ts =>
    obtain ⟨ty, ht, hrest⟩ := Option.bind_eq_some_iff.mp hts
    obtain ⟨tys', hts', htys⟩ := Option.bind_eq_some_iff.mp hrest
    exact Option.bind_eq_some_iff.mpr ⟨ty, tyIn_mono h t ty ht,
      Option.bind_eq_some_iff.mpr ⟨tys', tysIn_mono h ts tys' hts', htys⟩⟩

end

theorem Item.tyIn_mono (h : ∀ name ty, item name = some ty → item' name = some ty)
    (i : Item) (ty : Ty) (hi : i.tyIn item = some ty) : i.tyIn item' = some ty := by
  cases i with
  | typeAlias name target => exact Codegen.tyIn_mono h target ty hi
  | enumeration => exact hi
  | union name fields | reflected name fields | cppU64Pair name fields =>
    obtain ⟨tys, htys, hty⟩ := Option.bind_eq_some_iff.mp hi
    exact Option.bind_eq_some_iff.mpr ⟨tys, tysIn_mono h _ tys htys, hty⟩

theorem itemTy_succ (h : itemTy items depth name = some ty) :
    itemTy items (depth + 1) name = some ty := by
  induction depth generalizing name ty with
  | zero =>
    rw [itemTy] at h ⊢
    cases hfind : items.find? (·.name = name) with
    | none => simp [hfind] at h
    | some item =>
      simp only [hfind] at h ⊢
      split at h
      next henum => rwa [if_pos henum]
      next => cases h
  | succ depth ih =>
    rw [itemTy] at h ⊢
    cases hfind : items.find? (·.name = name) with
    | none => simp [hfind] at h
    | some item =>
      simp only [hfind] at h ⊢
      split at h
      next henum => rwa [if_pos henum]
      next henum =>
      rw [if_neg henum]
      exact item.tyIn_mono (fun name ty => ih) ty h

theorem itemTy_le (hle : depth ≤ depth')
    (h : itemTy items depth name = some ty) : itemTy items depth' name = some ty := by
  induction hle with
  | refl => exact h
  | step _ ih => exact itemTy_succ ih

/-- A Rust type is one type of the runtime. -/
theorem Denotes.unique {t : RustType} (h : Denotes items t ty) (h' : Denotes items t ty') :
    ty' = ty := by
  obtain ⟨depth, h⟩ := h
  obtain ⟨depth', h'⟩ := h'
  have hmax := tyIn_mono (fun name ty => itemTy_le (Nat.le_max_left depth depth')) t ty h
  have hmax' := tyIn_mono (fun name ty => itemTy_le (Nat.le_max_right depth depth')) t ty' h'
  exact Option.some.inj (hmax'.symm.trans hmax)

/-! ### Declarations and items -/

theorem typedef?_some (h : doc.typedef? name = some typedef) :
    typedef ∈ doc.typedefs ∧ typedef.name = name :=
  ⟨mem_reverse.mp (mem_of_find?_eq_some h), by simpa using find?_some h⟩

theorem enum?_some (h : doc.enum? name = some enumeration) :
    enumeration ∈ doc.enums ∧ enumeration.name = name :=
  ⟨mem_reverse.mp (mem_of_find?_eq_some h), by simpa using find?_some h⟩

theorem union?_some (h : doc.union? name = some union) : union ∈ doc.unions ∧ union.name = name :=
  ⟨mem_reverse.mp (mem_of_find?_eq_some h), by simpa using find?_some h⟩

theorem struct?_some (h : doc.struct? name = some structure_) :
    structure_ ∈ doc.structs ∧ structure_.name = name :=
  ⟨mem_reverse.mp (mem_of_find?_eq_some h), by simpa using find?_some h⟩

section

variable (hnd : (items.map Item.name).Nodup)
include hnd

/-- Names of items are unique, so that an item is found under its name. -/
theorem find?_item {item : Item} (h : item ∈ items) :
    items.find? (·.name = item.name) = some item := by
  induction items with
  | nil => cases h
  | cons first rest ih =>
    obtain ⟨hfirst, hrest⟩ := nodup_cons.mp hnd
    rcases mem_cons.mp h with rfl | hmem
    · simp
    · have hne : first.name ≠ item.name := fun heq => hfirst (heq ▸ mem_map_of_mem hmem)
      rw [find?_cons_of_neg (by simpa using hne)]
      exact ih hrest hmem

theorem itemTy_eq {item : Item} (h : item ∈ items) (henum : item.isEnumeration = false) :
    itemTy items (depth + 1) item.name = item.tyIn (itemTy items depth) := by
  rw [itemTy, find?_item hnd h]
  simp [henum]

theorem itemTy_enum {variants : List String} {type : EnumType}
    (h : .enumeration variants type ∈ items) (depth : ℕ) :
    itemTy items depth type.name = some (.enum type) := by
  have hfind := find?_item hnd h
  rw [Item.name] at hfind
  cases depth <;> rw [itemTy, hfind] <;> rfl

end

/-! ### Orders -/

theorem isOrd_of_isRustOrdOf {named : String → Bool}
    (h : ∀ name ty, named name = true → item (kit.upperCamel name) = some ty → isOrd ty = true)
    (type : IdlType) :
    ∀ ty, isRustOrdOf named type = true → (plainRustType kit type).tyIn item = some ty →
    isOrd ty = true := by
  induction type with
  | void | f32 | f64 => exact fun ty hord => by cases hord
  | list value ih =>
    intro ty hord hty
    obtain ⟨ty', hval, hty⟩ := Option.bind_eq_some_iff.mp hty
    cases hty
    exact ih ty' hord hval
  | set value ih =>
    intro ty hord hty
    obtain ⟨ty', hval, hty⟩ := Option.bind_eq_some_iff.mp hty
    have hval := ih ty' hord hval
    rw [if_pos hval] at hty
    cases hty
    exact hval
  | map key value ihkey ihvalue =>
    intro ty hord hty
    obtain ⟨hordkey, hordvalue⟩ := Bool.and_eq_true_iff.mp hord
    obtain ⟨k, hkey, hty⟩ := Option.bind_eq_some_iff.mp hty
    obtain ⟨v, hval, hty⟩ := Option.bind_eq_some_iff.mp hty
    have hkey := ihkey k hordkey hkey
    rw [if_pos hkey] at hty
    cases hty
    exact Bool.and_eq_true_iff.mpr ⟨hkey, ihvalue v hordvalue hval⟩
  | named name => exact fun ty hord hty => h name ty hord hty
  | _ =>
    intro ty hord hty
    cases hty
    rfl

section Agreement

variable (hdoc : ValidDocument kit doc) (hits : ItemsOf kit doc items)

include hdoc hits

theorem items_nodup : (items.map Item.name).Nodup := hits.names ▸ hdoc.nodup

theorem itemTy_of_enum (h : doc.enum? name = some enumeration) (depth : ℕ) :
    ∃ type, itemTy items depth (kit.upperCamel name) = some (.enum type) ∧
      type.repr = enumeration.repr := by
  obtain ⟨hmem, rfl⟩ := enum?_some h
  obtain ⟨_, hitem, _, type, rfl, hname, hrepr⟩ := hits.enums enumeration hmem
  exact ⟨type, hname ▸ itemTy_enum (items_nodup hdoc hits) hitem depth, hrepr⟩

theorem itemTy_of_typedef (h : doc.typedef? name = some typedef) :
    itemTy items 0 (kit.upperCamel name) = none ∧ ∀ depth, itemTy items (depth + 1)
      (kit.upperCamel name) = (plainRustType kit typedef.target).tyIn (itemTy items depth) := by
  obtain ⟨hmem, rfl⟩ := typedef?_some h
  obtain ⟨_, hitem, rfl⟩ := hits.typedefs typedef hmem
  refine ⟨?_, fun depth => itemTy_eq (items_nodup hdoc hits) hitem rfl⟩
  have hfind := find?_item (items_nodup hdoc hits) hitem
  rw [Item.name] at hfind
  rw [itemTy, hfind]
  rfl

theorem isOrd_of_enum (h : (doc.enum? name).isSome = true)
    (hty : itemTy items depth (kit.upperCamel name) = some ty) : isOrd ty = true := by
  obtain ⟨_, henum⟩ := Option.isSome_iff_exists.mp h
  obtain ⟨_, htype, -⟩ := itemTy_of_enum hdoc hits henum depth
  cases hty.symm.trans htype
  rfl

theorem isOrd_of_isRustOrdNamed (bound : ℕ) :
    ∀ (stack : List String) (depth : ℕ) (name : String) (ty : Ty), isRustOrdNamed doc bound stack
      name = true → itemTy items depth (kit.upperCamel name) = some ty → isOrd ty = true := by
  induction bound with
  | zero =>
    intro stack depth name ty h hty
    rw [isRustOrdNamed] at h
    split at h
    next henum => exact isOrd_of_enum hdoc hits henum hty
    next => split at h <;> cases h
  | succ bound ih =>
    intro stack depth name ty h hty
    rw [isRustOrdNamed] at h
    split at h
    next henum => exact isOrd_of_enum hdoc hits henum hty
    next =>
    split at h
    · cases h
    cases htdf : doc.typedef? name with
    | none => simp [htdf] at h
    | some typedef =>
      simp only [htdf] at h
      obtain ⟨hzero, hsucc⟩ := itemTy_of_typedef hdoc hits htdf
      cases depth with
      | zero => cases hzero.symm.trans hty
      | succ depth =>
        rw [hsucc] at hty
        exact isOrd_of_isRustOrdOf (ih (name :: stack) depth) typedef.target ty h hty

/-- The elements of a set and the keys of a map have an order. -/
theorem isOrd_of_isRustOrd {type : IdlType} (h : isRustOrd doc type = true)
    (hty : (plainRustType kit type).tyIn (itemTy items depth) = some ty) : isOrd ty = true :=
  isOrd_of_isRustOrdOf (isOrd_of_isRustOrdNamed hdoc hits _ [] depth) type ty h hty

/-! ### Types -/

/-- The literals of names agree with the types of the items. -/
def NamesAgree (kit : Toolkit) (named : String → Check Bytes) (item : String → Option Ty) : Prop :=
  ∀ name literal, named name = .ok literal → ∃ ty, item (kit.upperCamel name) = some ty ∧
    ty.literal = literal

variable (hnamed : NamesAgree kit named (itemTy items depth))
include hnamed

theorem type_agrees (type : IdlType) :
    ∀ literal, validateOrderedContainers doc type = .ok () → literalOf named type = .ok literal →
      ∃ ty, (plainRustType kit type).tyIn (itemTy items depth) = some ty ∧
      ty.literal = literal := by
  induction type with
  | list value ih =>
    intro literal hvld h
    obtain ⟨bytes, hval, h⟩ := bind_eq_ok.mp h
    obtain ⟨ty, hty, rfl⟩ := ih bytes hvld hval
    cases h
    exact ⟨.vec ty, Option.bind_eq_some_iff.mpr ⟨ty, hty, rfl⟩, rfl⟩
  | set value ih =>
    intro literal hvld h
    obtain ⟨u, hord, hvld⟩ := bind_eq_ok.mp hvld
    obtain ⟨bytes, hval, h⟩ := bind_eq_ok.mp h
    obtain ⟨ty, hty, rfl⟩ := ih bytes hvld hval
    have hord := isOrd_of_isRustOrd hdoc hits (require_eq_ok.mp hord) hty
    cases h
    exact ⟨.set ty, Option.bind_eq_some_iff.mpr ⟨ty, hty, if_pos hord⟩, rfl⟩
  | map key value ihkey ihvalue =>
    intro literal hvld h
    obtain ⟨u, hord, hvld⟩ := bind_eq_ok.mp hvld
    obtain ⟨u, hvalidkey, hvalidvalue⟩ := bind_eq_ok.mp hvld
    obtain ⟨bytes, hkey, h⟩ := bind_eq_ok.mp h
    obtain ⟨bytes', hval, h⟩ := bind_eq_ok.mp h
    obtain ⟨k, hk, rfl⟩ := ihkey bytes hvalidkey hkey
    obtain ⟨v, hv, rfl⟩ := ihvalue bytes' hvalidvalue hval
    have hord := isOrd_of_isRustOrd hdoc hits (require_eq_ok.mp hord) hk
    cases h
    exact ⟨.map k v, Option.bind_eq_some_iff.mpr ⟨k, hk, Option.bind_eq_some_iff.mpr ⟨v, hv, if_pos hord⟩⟩, rfl⟩
  | named name => exact fun literal _ h => hnamed name literal h
  | _ =>
    intro literal _ h
    cases h
    exact ⟨_, rfl, rfl⟩

theorem field_agrees (hvld : validateType doc field.type = .ok ())
    (h : literalOf named field.type = .ok literal) :
    ∃ ty, (fieldRustType kit field).tyIn (itemTy items depth) = some ty ∧
      ty.literal = markOptional field.optional literal := by
  obtain ⟨_, -, hordered⟩ := bind_eq_ok.mp hvld
  obtain ⟨ty, hty, rfl⟩ := type_agrees hdoc hits hnamed field.type literal hordered h
  unfold fieldRustType markOptional
  split
  · exact ⟨.option ty, Option.bind_eq_some_iff.mpr ⟨ty, hty, rfl⟩, rfl⟩
  · exact ⟨ty, hty, rfl⟩

end Agreement

/-- The literals of the parts of a declaration, one after the other. -/
theorem parts_agree {α : Type} {literalOf : α → Check Bytes} {rustTypeOf : α → RustType}
    {parts : List α} (h : ∀ part ∈ parts, ∀ literal, literalOf part = .ok literal →
      ∃ ty, (rustTypeOf part).tyIn item = some ty ∧ ty.literal = literal)
    {bytes : List Bytes} (hbyt : parts.mapM literalOf = .ok bytes) :
    ∃ tys, tysIn item (parts.map rustTypeOf) = some tys ∧ literals tys = bytes.flatten ∧
      tys.length = parts.length := by
  induction parts generalizing bytes with
  | nil =>
    cases hbyt
    exact ⟨[], rfl, rfl, rfl⟩
  | cons part rest ih =>
    obtain ⟨hpart, hrest⟩ := forall_mem_cons.mp h
    rw [mapM_cons] at hbyt
    obtain ⟨literal, hliteral, hbyt⟩ := bind_eq_ok.mp hbyt
    obtain ⟨_, hlits, hbyt⟩ := bind_eq_ok.mp hbyt
    cases hbyt
    obtain ⟨ty, hty, rfl⟩ := hpart literal hliteral
    obtain ⟨tys, htys, hflatten, hlth⟩ := ih hrest hlits
    refine ⟨ty :: tys,
      Option.bind_eq_some_iff.mpr ⟨ty, hty, Option.bind_eq_some_iff.mpr ⟨tys, htys, rfl⟩⟩, ?_, ?_⟩
    · rw [literals, hflatten, flatten_cons]
    · rw [length_cons, hlth, length_cons]

section Agreement

variable (hdoc : ValidDocument kit doc) (hits : ItemsOf kit doc items)

include hdoc hits

theorem struct_agrees (hnamed : NamesAgree kit named (itemTy items depth))
    {structure_ : Structure} (hmem : structure_ ∈ doc.structs)
    (h : structLiteral named structure_ = .ok literal) :
    ∃ ty, itemTy items (depth + 1) (kit.upperCamel structure_.name) = some ty ∧
    ty.literal = literal := by
  obtain ⟨_, hitem, hstruct⟩ := hits.structs structure_ hmem
  obtain ⟨fields, hflds, h⟩ := bind_eq_ok.mp h
  obtain ⟨bytes, hbyt, hflds⟩ := bind_eq_ok.mp hflds
  cases h
  cases hflds
  have hpts : ∀ field ∈ orderedFields structure_.fields, ∀ literal,
      (do let literal ← literalOf named field.type; return markOptional field.optional literal) =
      .ok literal → ∃ ty, (fieldRustType kit field).tyIn (itemTy items depth) = some ty ∧
      ty.literal = literal := by
    intro field hfield literal h
    obtain ⟨bytes, hliteral, h⟩ := bind_eq_ok.mp h
    cases h
    exact field_agrees hdoc hits hnamed
      (hdoc.fields structure_ hmem field (mem_orderedFields.mp hfield)) hliteral
  obtain ⟨tys, htys, hflatten, hlth⟩ := parts_agree hpts hbyt
  have htypes : ∀ name : Field → String, tysIn (itemTy items depth)
      (((orderedFields structure_.fields).map fun field => (name field, fieldRustType kit field)).map (·.2)) =
      some tys := by
    intro name
    rw [map_map]
    exact htys
  rw [← hstruct.name_eq,
    itemTy_eq (items_nodup hdoc hits) hitem (by rw [hstruct]; split <;> rfl), hstruct]
  by_cases hpair : structure_.cppU64Pair = true
  · rw [if_pos hpair, if_pos hpair]
    refine ⟨.product .cppU64Pair tys, Option.bind_eq_some_iff.mpr ⟨tys, htypes _, rfl⟩, ?_⟩
    rw [Ty.literal, hflatten]
    rfl
  have hnem : tys.isEmpty = false := by
    obtain ⟨_, hflds, -⟩ := bind_eq_ok.mp (hdoc.structs structure_ hmem)
    have hlth' := length_pos_of_ne_nil (require_eq_ok.mp hflds)
    rw [← length_orderedFields, ← hlth] at hlth'
    exact isEmpty_eq_false_iff.mpr (ne_nil_of_length_pos hlth')
  rw [if_neg hpair, if_neg hpair]
  refine ⟨.product .reflected tys, Option.bind_eq_some_iff.mpr ⟨tys, htypes _, ?_⟩, ?_⟩
  · rw [hnem]
    rfl
  · rw [Ty.literal, hflatten]
    rfl

theorem union_agrees (hnamed : NamesAgree kit named (itemTy items depth))
    {union : Union} (hmem : union ∈ doc.unions) (h : unionLiteral named union = .ok literal) :
    ∃ ty, itemTy items (depth + 1) (kit.upperCamel union.name) = some ty ∧
    ty.literal = literal := by
  obtain ⟨_, hitem, hunion⟩ := hits.unions union hmem
  have halt : ∀ alternative ∈ union.alternatives, ∀ literal, literalOf named alternative.type = .ok
      literal → ∃ ty, (plainRustType kit alternative.type).tyIn (itemTy items depth) = some ty ∧
      ty.literal = literal := by
    intro alternative halt literal h
    obtain ⟨_, -, hordered⟩ := bind_eq_ok.mp (hdoc.alternatives union hmem alternative halt)
    exact type_agrees hdoc hits hnamed alternative.type literal hordered h
  rw [unionLiteral] at h
  by_cases hexp : union.expected = true
  · rw [if_pos hexp] at h
    rw [UnionItem, if_pos hexp] at hunion
    obtain ⟨value, error, halts, rfl⟩ := hunion
    obtain ⟨herro, hval⟩ := expectedAlternatives_mem halts
    obtain ⟨⟨_, _⟩, halts', h⟩ := bind_eq_ok.mp h
    cases halts.symm.trans halts'
    obtain ⟨valueBytes, hvalueBytes, h⟩ := bind_eq_ok.mp h
    obtain ⟨errorBytes, herrorBytes, h⟩ := bind_eq_ok.mp h
    cases h
    obtain ⟨errorTy, herrorTy, rfl⟩ := halt error herro errorBytes herrorBytes
    have hvalueTy : ∃ ty, (value.elim .unit fun value => plainRustType kit value.type).tyIn
        (itemTy items depth) = some ty ∧ ty.literal = valueBytes := by
      cases value with
      | none =>
        cases hvalueBytes
        exact ⟨.unit, rfl, rfl⟩
      | some value => exact halt value (hval value rfl) valueBytes hvalueBytes
    obtain ⟨valueTy, hvalueTy, rfl⟩ := hvalueTy
    refine ⟨.result valueTy errorTy, ?_, rfl⟩
    refine (itemTy_eq (items_nodup hdoc hits) hitem rfl).trans ?_
    exact Option.bind_eq_some_iff.mpr ⟨valueTy, hvalueTy, Option.bind_eq_some_iff.mpr ⟨errorTy, herrorTy, rfl⟩⟩
  rw [if_neg hexp] at h
  rw [UnionItem, if_neg hexp] at hunion
  subst hunion
  obtain ⟨alternatives, halts, h⟩ := bind_eq_ok.mp h
  obtain ⟨_, hbyt, halts⟩ := bind_eq_ok.mp halts
  cases h
  cases halts
  obtain ⟨tys, htys, hflatten, -⟩ := parts_agree
    (fun alternative hmem' => halt alternative (mem_orderedFields.mp hmem')) hbyt
  refine ⟨.union (kit.upperCamel union.name) tys, ?_, ?_⟩
  · refine (itemTy_eq (items_nodup hdoc hits) hitem rfl).trans ?_
    refine Option.bind_eq_some_iff.mpr ⟨tys, ?_, rfl⟩
    rw [map_map]
    exact htys
  · rw [Ty.literal, hflatten]
    rfl

/-- Expanding a name and unfolding its item give the same literal. -/
theorem names_agree (depth : ℕ) :
    ∀ stack, NamesAgree kit (namedLiteral doc depth stack) (itemTy items depth) := by
  have henum : ∀ {name enumeration}, doc.enum? name = some enumeration → ∀ depth stack literal,
      namedLiteral doc depth stack name = .ok literal →
        ∃ ty, itemTy items depth (kit.upperCamel name) = some ty ∧ ty.literal = literal := by
    intro name enumeration hname depth stack literal h
    obtain ⟨type, htype, hrepr⟩ := itemTy_of_enum hdoc hits hname depth
    refine ⟨.enum type, htype, ?_⟩
    rw [namedLiteral.eq_def] at h
    cases depth
    all_goals
      simp only [hname, Except.ok.injEq] at h
      rw [← h, Ty.literal, hrepr]
      cases enumeration.repr <;> rfl
  induction depth with
  | zero =>
    intro stack name literal h
    cases hname : doc.enum? name with
    | some enumeration => exact henum hname _ _ _ h
    | none =>
      rw [namedLiteral] at h
      simp only [hname] at h
      split at h <;> cases h
  | succ depth ih =>
    intro stack name literal h
    cases hname : doc.enum? name with
    | some enumeration => exact henum hname _ _ _ h
    | none =>
      rw [namedLiteral] at h
      simp only [hname] at h
      split at h
      · cases h
      cases htdf : doc.typedef? name with
      | some typedef =>
        simp only [htdf] at h
        obtain ⟨hmem, -⟩ := typedef?_some htdf
        obtain ⟨_, -, hordered⟩ := bind_eq_ok.mp (hdoc.targets typedef hmem)
        rw [(itemTy_of_typedef hdoc hits htdf).2]
        exact type_agrees hdoc hits (ih (name :: stack)) typedef.target literal hordered h
      | none =>
        cases hstruct : doc.struct? name with
        | some structure_ =>
          simp only [htdf, hstruct] at h
          obtain ⟨hmem, rfl⟩ := struct?_some hstruct
          exact struct_agrees hdoc hits (ih _) hmem h
        | none =>
          cases hunion : doc.union? name with
          | some union =>
            simp only [htdf, hstruct, hunion] at h
            obtain ⟨hmem, rfl⟩ := union?_some hunion
            exact union_agrees hdoc hits (ih _) hmem h
          | none => simp [htdf, hstruct, hunion] at h

theorem typeLiteral_agrees {type : IdlType}
    (hvld : validateType doc type = .ok ()) (h : typeLiteral doc stack type false = .ok literal) :
    ∃ ty, (plainRustType kit type).tyIn (itemTy items doc.expandable.length) = some ty ∧
    ty.literal = literal := by
  obtain ⟨bytes, hbyt, h⟩ := bind_eq_ok.mp h
  cases h
  obtain ⟨_, -, hordered⟩ := bind_eq_ok.mp hvld
  exact type_agrees hdoc hits (names_agree hdoc hits _ stack) type bytes hordered hbyt

theorem fieldLiteral_agrees (hvld : validateType doc field.type = .ok ())
    (h : typeLiteral doc stack field.type field.optional = .ok literal) :
    ∃ ty, (fieldRustType kit field).tyIn (itemTy items doc.expandable.length) = some ty ∧
    ty.literal = literal := by
  obtain ⟨_, hbyt, h⟩ := bind_eq_ok.mp h
  cases h
  exact field_agrees hdoc hits (names_agree hdoc hits _ stack) hvld hbyt

/-- The request of a method is its parameter, or a tuple of up to eight of them. -/
theorem request_agrees {fields : List Field} (hcnt : 1 ≤ fields.length ∧ fields.length ≤ 8)
    (hvld : ∀ field ∈ fields, validateType doc field.type = .ok ())
    (h : requestTypeLiteral doc [] fields = .ok literal) :
    ∃ ty, (requestRustType ((orderedFields fields).map (fieldRustType kit))).tyIn
      (itemTy items doc.expandable.length) = some ty ∧ ty.literal = literal := by
  have hfield : ∀ field ∈ orderedFields fields, ∀ literal, typeLiteral doc [] field.type
      field.optional = .ok literal → ∃ ty, (fieldRustType kit field).tyIn
      (itemTy items doc.expandable.length) = some ty ∧ ty.literal = literal :=
    fun field hmem literal => fieldLiteral_agrees hdoc hits (hvld field (mem_orderedFields.mp hmem))
  rw [← length_orderedFields] at hcnt
  rw [requestTypeLiteral] at h
  generalize orderedFields fields = ordered at hfield hcnt h ⊢
  split at h
  next field => exact hfield field (mem_singleton_self _) literal h
  next fields' hmany =>
  obtain ⟨_, hbyt, h⟩ := bind_eq_ok.mp h
  cases h
  obtain ⟨tys, htys, hflatten, hlth⟩ := parts_agree hfield hbyt
  have hreq : requestRustType (ordered.map (fieldRustType kit)) = .tuple (ordered.map (fieldRustType kit)) := by
    match ordered, hmany with
    | [], _ => rfl
    | [field], hmany => exact absurd rfl (hmany field)
    | _ :: _ :: _, _ => rfl
  rw [hreq]
  refine ⟨.product .tuple tys, Option.bind_eq_some_iff.mpr ⟨tys, htys, ?_⟩, ?_⟩
  · rw [if_pos (hlth ▸ hcnt)]
  · rw [Ty.literal, hflatten, ProductKind.trailer, append_nil]
    rfl

end Agreement

/-! ### Methods -/

/-- The descriptor of every method with up to eight parameters has the literals and the hashes of
its types. -/
theorem schema_literals_agree (h : validate kit doc = .ok ()) :
    ∃ items, generateItems kit doc = .ok items ∧
      ∀ service ∈ doc.services, ∀ function ∈ service.functions,
      1 ≤ function.parameters.length → function.parameters.length ≤ 8 →
      ∃ method requestTy responseTy, generateMethod kit doc service function = .ok method ∧
        (∀ ty, Denotes items method.requestType ty ↔ ty = requestTy) ∧
        (∀ ty, Denotes items method.returnType ty ↔ ty = responseTy) ∧
        requestTypeLiteral doc [] function.parameters = .ok requestTy.literal ∧
        typeLiteral doc [] function.returns false = .ok responseTy.literal ∧
        method.requestHash = typeHash kit.md5Hash32 requestTy ∧
        method.responseHash = typeHash kit.md5Hash32 responseTy := by
  have hdoc := validate_eq_ok h
  obtain ⟨items, hgenerate, hitems⟩ := hdoc.generateItems_eq
  refine ⟨items, hgenerate, ?_⟩
  intro service hservice function hfunction hpositive hcount
  obtain ⟨hident, ⟨_, hfields⟩, hreturns, htypes, _, _, hrequest, hresponse⟩ :=
    hdoc.functions service hservice function hfunction
  obtain ⟨requestTy, hrequestTy, rfl⟩ :=
    request_agrees hdoc hitems ⟨hpositive, hcount⟩ htypes hrequest
  obtain ⟨responseTy, hresponseTy, rfl⟩ := typeLiteral_agrees hdoc hitems hreturns hresponse
  have hdenotes : ∀ {t : RustType} {ty : Ty}, t.tyIn (itemTy items doc.expandable.length) =
      some ty → ∀ ty', Denotes items t ty' ↔ ty' = ty := by
    intro t ty hty ty'
    refine ⟨fun hdenotes => Denotes.unique ⟨_, hty⟩ hdenotes, ?_⟩
    rintro rfl
    exact ⟨_, hty⟩
  have hnames : (orderedFields function.parameters).mapM
      (fun field => kit.rustIdent (kit.snake field.name) "parameter") =
      .ok ((orderedFields function.parameters).map fun field => kit.snake field.name) :=
    mapM_eq_map fun field hfield =>
      (validateFieldsAfter_eq_ok hfields field (mem_orderedFields.mp hfield)).rustIdent "parameter"
  refine ⟨_, requestTy, responseTy,
    bind_eq_ok.mpr ⟨_, hident.rustIdent _, bind_eq_ok.mpr ⟨_, hdoc.rustType_eq hreturns false,
    bind_eq_ok.mpr ⟨_, hresponse, bind_eq_ok.mpr ⟨_, hnames, bind_eq_ok.mpr ⟨_, hdoc.fieldTypes_eq htypes,
      bind_eq_ok.mpr ⟨_, hrequest, rfl⟩⟩⟩⟩⟩⟩, ?_, ?_, hrequest, hresponse, rfl, rfl⟩
  · exact hdenotes hrequestTy
  · exact hdenotes hresponseTy

def sampleFunction : Function :=
  ⟨"find", none, false, .named "Outcome",
    [⟨2, "kinds", .map (.named "Kind") .f64, false⟩, ⟨1, "key", .named "Key", true⟩]⟩

def sampleService : Service := ⟨"Store", none, [sampleFunction]⟩

/-- A contract with a typedef chain, an optional field, fields out of order, enums of both widths,
an expected and a plain union, and a pair. -/
def sampleDocument : Document where
  rustNamespace := []
  cppNamespace := some "store"
  typedefs := [⟨"Key", .string⟩, ⟨"Keys", .set (.named "Key")⟩]
  enums := [⟨"Status", [⟨"Ok", 0⟩, ⟨"Lost", -3⟩], .i32⟩, ⟨"Kind", [⟨"Memory", 0⟩], .u8⟩]
  unions :=
    [⟨"Outcome", [⟨1, "value", .named "Entry", false⟩, ⟨2, "error", .named "Status", false⟩], true⟩,
    ⟨"Choice", [⟨2, "Kind", .named "Kind", false⟩, ⟨1, "Id", .named "Id", false⟩], false⟩]
  structs := [⟨"Id", [⟨1, "high", .u64, false⟩, ⟨2, "low", .u64, false⟩], true⟩,
    ⟨"Entry", [⟨2, "keys", .named "Keys", true⟩, ⟨1, "choice", .named "Choice", false⟩], false⟩]
  services := [sampleService]

/-- The other names are in their cases already, and there are three digests: of the route, of
the request and of the response. -/
def sampleToolkit : Toolkit where
  upperCamel name := if name = "value" then "Value" else if name = "error" then "Error" else name
  snake := id
  parsesAsIdent name := name ≠ ""
  md5Hash32 literal :=
    if literal.length = 11 then 0xb3ac7d65 else if literal.length = 8 then 0x1e12d75c else 0xe3338ae8

theorem schema_literals_agree_sample : validate sampleToolkit sampleDocument = .ok () ∧
    ∃ items method requestTy, generateItems sampleToolkit sampleDocument = .ok items ∧
      generateMethod sampleToolkit sampleDocument sampleService sampleFunction = .ok method ∧
      Denotes items method.requestType requestTy ∧
      requestTypeLiteral sampleDocument [] sampleFunction.parameters = .ok requestTy.literal := by
  have hvalid : validate sampleToolkit sampleDocument = .ok () := by decide
  obtain ⟨items, hitems, hmethods⟩ := schema_literals_agree hvalid
  obtain ⟨method, requestTy, _, hmethod, hrequest, -, hliteral, -⟩ :=
    hmethods sampleService List.mem_cons_self sampleFunction List.mem_cons_self (by decide) (by decide)
  exact ⟨hvalid, items, method, requestTy, hitems, hmethod, (hrequest requestTy).mpr rfl, hliteral⟩

end Cakemaster.Codegen
