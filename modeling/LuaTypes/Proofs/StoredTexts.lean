import LuaTypes.Proofs.JsonReading
import LuaTypes.Stored.Json

/-!
Texts of stored types. A stored type is read back from the text that it was written as, if no more
arrays and objects are open in it at once than a reader has room for.
-/

namespace LuaTypes

/-! Records. -/

namespace Json

/-- A list that was written item by item is read item by item. -/
theorem list?_map {α : Type} {read : Json → Option α} {write : α → Json} {as : List α}
    (h : ∀ a ∈ as, read (write a) = some a) : list? read (.arr (as.map write)) = some as := by
  change (as.map write).mapM read = some as
  induction as with
  | nil => rfl
  | cons a as ih =>
    obtain ⟨ha, has⟩ := List.forall_mem_cons.mp h
    simp [ha, ih has]

theorem list?_namesJson (names : List String) : list? str? (namesJson names) = some names :=
  list?_map fun _ _ => rfl

/-- A list that is left out where it is empty. -/
theorem orDefault_list {α : Type} {read : Json → Option α} {items : List α} {j : Json}
    (h : items.isEmpty = false → list? read j = some items) :
    orDefault [] (list? read) (if items.isEmpty then none else some j) = some items := by
  cases items with
  | nil => rfl
  | cons a as => exact h rfl

/-- A text that is left out where there is none. -/
theorem optional_str (s? : Option String) :
    optional str? (if s?.isNone then none else some (.str (s?.getD ""))) = some s? := by
  cases s? <;> rfl

end Json

theorem ClassStub.record?_members (stub : ClassStub) :
    Json.record? keys (.obj stub.members) = some [some (.str stub.className),
      if stub.generics.isEmpty then none else some (namesJson stub.generics),
      some (.str stub.varName),
      if stub.supers.isEmpty then none else some (namesJson stub.supers),
      if stub.alias?.isNone then none else some (.str (stub.alias?.getD "")),
      some (.int stub.flags)] := by
  rw [members]
  cases stub.generics.isEmpty <;> cases stub.supers.isEmpty <;> cases stub.alias?.isNone <;> rfl

theorem ClassStub.ofJson?_members {stub : ClassStub} (h : stub.flags < 256) :
    ofJson? (.obj stub.members) = some stub := by
  have hflags : Json.orDefault 0 (Json.below? 256) (some (.int stub.flags)) = some stub.flags :=
    if_pos h
  rw [ofJson?, record?_members]
  simp only [Option.bind_eq_bind, Option.bind_some, Json.required, Json.str?, hflags,
    Json.orDefault_list fun _ => Json.list?_namesJson _, Json.optional_str]
  rfl

theorem forall_mem_memberUnless {P : String × Json → Prop} {absent : Bool} {key : String}
    {v : Json} (h : P (key, v)) : ∀ m ∈ memberUnless absent key v, P m := by
  cases absent with
  | true => exact List.forall_mem_nil _
  | false => exact List.forall_mem_singleton.mpr h

theorem plain_namesJson (names : List String) : (namesJson names).Plain :=
  .arr (List.forall_mem_map.mpr fun name _ => .str name)

theorem ClassStub.plain_members {stub : ClassStub} (h : stub.flags < 256) :
    ∀ m ∈ stub.members, m.2.Plain := by
  have hflags : stub.flags < Json.NumberText.wordValues := h.trans (by decide)
  simp only [members, List.forall_mem_append, List.forall_mem_singleton]
  exact ⟨⟨⟨⟨⟨.str _, forall_mem_memberUnless (plain_namesJson _)⟩, .str _⟩,
    forall_mem_memberUnless (plain_namesJson _)⟩, forall_mem_memberUnless (.str _)⟩, .int hflags⟩

theorem ClassStub.key_ne_kind (stub : ClassStub) : ∀ m ∈ stub.members, m.1 ≠ "kind" := by
  simp only [members, List.forall_mem_append, List.forall_mem_singleton]
  refine ⟨⟨⟨⟨⟨by simp, ?_⟩, by simp⟩, ?_⟩, ?_⟩, by simp⟩
  all_goals exact forall_mem_memberUnless (by simp)

theorem TypeParam.plain_toJson (p : TypeParam) : p.toJson.Plain := by
  refine .obj (List.forall_mem_append.mpr ⟨List.forall_mem_singleton.mpr (.str p.name), ?_⟩)
  exact forall_mem_memberUnless (.str _)

theorem TypeParam.ofJson?_toJson (p : TypeParam) : ofJson? p.toJson = some p := by
  have hrecord : Json.record? ["name", "superClass"] p.toJson = some [some (.str p.name),
      if p.bound?.isNone then none else some (.str (p.bound?.getD ""))] := by
    rw [toJson]
    cases p.bound?.isNone <;> rfl
  rw [ofJson?, hrecord]
  simp only [Option.bind_eq_bind, Option.bind_some, Json.required, Json.str?, Json.optional_str]
  rfl

/-! Types. -/

/-- The types of a signature: of its parameters, of its result and of its further arguments. -/
def StoredSignature.types (sig : StoredSignature) : List StoredTy :=
  sig.params.map (·.ty) ++ sig.ret :: sig.vararg?.toList

/-- The flags of every class in the type are a byte. -/
inductive StoredTy.Fits : StoredTy → Prop
  | unknown : Fits .unknown
  | invalid : Fits .invalid
  | prim (name : String) : Fits (.prim name)
  | cls {stub : ClassStub} : stub.flags < 256 → Fits (.cls stub)
  | docTable {name : String} {fields : List StoredField} :
    (∀ f ∈ fields, f.ty.Fits) → Fits (.docTable name fields)
  | union {members : List StoredTy} : (∀ m ∈ members, m.Fits) → Fits (.union members)
  | generic {base : StoredTy} {args : List StoredTy} :
    base.Fits → (∀ arg ∈ args, arg.Fits) → Fits (.generic base args)
  | func {main : StoredSignature} {overloads : List StoredSignature} :
    (∀ sig ∈ main :: overloads, ∀ ty ∈ sig.types, ty.Fits) → Fits (.func main overloads)
  | array {element : StoredTy} : element.Fits → Fits (.array element)
  | tuple {items : List StoredTy} : (∀ item ∈ items, item.Fits) → Fits (.tuple items)

theorem StoredTy.allToJson_eq_map (types : List StoredTy) :
    StoredTy.allToJson types = types.map toJson := by
  induction types with
  | nil => rfl
  | cons ty rest ih => rw [allToJson, ih, List.map_cons]

def StoredField.toJson (f : StoredField) : Json := .obj [("name", .str f.name), ("ty", f.ty.toJson)]

theorem StoredField.allToJson_eq_map (fields : List StoredField) :
    StoredField.allToJson fields = fields.map toJson := by
  induction fields with
  | nil => rfl
  | cons f rest ih =>
    obtain ⟨name, ty⟩ := f
    rw [allToJson, ih, List.map_cons]
    rfl

theorem StoredSignature.allToJson_eq_map (sigs : List StoredSignature) :
    StoredSignature.allToJson sigs = sigs.map toJson := by
  induction sigs with
  | nil => rfl
  | cons sig rest ih => rw [allToJson, ih, List.map_cons]

/-- What is written for a type can be read, and is read as the type. -/
structure StoredTy.RoundTrips (ty : StoredTy) : Prop where
  plain : ty.toJson.Plain
  reads {room : Nat} (nested : Bool) : ty.toJson.depth ≤ room →
    ofJson? room nested ty.toJson = some ty

namespace Json

theorem depth_obj_le {members : List (String × Json)} {n : Nat} :
    (Json.obj members).depth ≤ n + 1 ↔ ∀ m ∈ members, m.2.depth ≤ n := by
  rw [depth, Nat.add_le_add_iff_right, depthOfMembers_le_iff]

theorem depth_arr_le {items : List Json} {n : Nat} (h : (Json.arr items).depth ≤ n) :
    ∀ j ∈ items, j.depth ≤ n := by
  rw [depth] at h
  exact depthOfItems_le_iff.mp (Nat.le_of_succ_le h)

end Json

namespace StoredTy

theorem ofJson?_tagged {room : Nat} {nested : Bool} {kind : String}
    {members : List (String × Json)} (h : ∀ m ∈ members, m.1 ≠ "kind") :
    ofJson? (room + 1) nested (taggedJson kind members)
      = ofBody? (ofJson? room true) kind (.obj members) := by
  have hvalues : Json.valuesOf "kind" (("kind", .str kind) :: members) = [.str kind] := by
    have hnone : members.filter (·.1 == "kind") = [] := by
      simpa using h
    simp [Json.valuesOf, hnone]
  have hrest : (("kind", Json.str kind) :: members).filter (·.1 != "kind") = members := by
    have hall : members.filter (·.1 != "kind") = members := by
      simpa using h
    simp [hall]
  simp [ofJson?, taggedJson, splitKind?, hvalues, hrest, kindName?]

/-- So it is if the parts that are written beside the kind can be read. -/
theorem RoundTrips.tagged {ty : StoredTy} {kind : String} {members : List (String × Json)}
    (hjson : ty.toJson = taggedJson kind members) (hkind : ∀ m ∈ members, m.1 ≠ "kind")
    (hplain : ∀ m ∈ members, m.2.Plain)
    (hreads : ∀ room, (∀ m ∈ members, m.2.depth ≤ room) →
      ofBody? (ofJson? room true) kind (.obj members) = some ty) : ty.RoundTrips where
  plain := by
    rw [hjson]
    exact .obj (List.forall_mem_cons.mpr ⟨.str kind, hplain⟩)
  reads := by
    intro room nested hroom
    rw [hjson] at hroom ⊢
    cases room with
    | zero => cases hroom
    | succ room =>
      rw [ofJson?_tagged hkind]
      exact hreads room fun m hm =>
        Json.depth_obj_le.mp hroom m (List.mem_cons_of_mem _ hm)

end StoredTy

/-! What stands beside the kind of a type. -/

section

variable {room : Nat}

theorem StoredTy.plain_allToJson {types : List StoredTy} (h : ∀ ty ∈ types, ty.RoundTrips) :
    (Json.arr (allToJson types)).Plain := by
  rw [allToJson_eq_map]
  exact .arr (List.forall_mem_map.mpr fun ty hty => (h ty hty).plain)

theorem StoredTy.list?_allToJson {types : List StoredTy} (h : ∀ ty ∈ types, ty.RoundTrips)
    (hroom : (Json.arr (allToJson types)).depth ≤ room) :
    Json.list? (ofJson? room true) (.arr (allToJson types)) = some types := by
  have hdepth := Json.depth_arr_le hroom
  rw [allToJson_eq_map] at hdepth ⊢
  exact Json.list?_map fun ty hty => (h ty hty).reads true (hdepth _ (List.mem_map_of_mem hty))

theorem StoredField.plain_allToJson {fields : List StoredField}
    (h : ∀ f ∈ fields, f.ty.RoundTrips) : (Json.arr (allToJson fields)).Plain := by
  rw [allToJson_eq_map]
  refine .arr (List.forall_mem_map.mpr fun f hf => .obj ?_)
  exact List.forall_mem_cons.mpr ⟨.str f.name, List.forall_mem_singleton.mpr (h f hf).plain⟩

theorem StoredField.list?_allToJson {fields : List StoredField}
    (h : ∀ f ∈ fields, f.ty.RoundTrips) (hroom : (Json.arr (allToJson fields)).depth ≤ room) :
    Json.list? (ofJson? (StoredTy.ofJson? room true)) (.arr (allToJson fields)) = some fields := by
  have hdepth := Json.depth_arr_le hroom
  rw [allToJson_eq_map] at hdepth ⊢
  refine Json.list?_map fun f hf => ?_
  have hfield : f.toJson.depth ≤ room + 1 := Nat.le_succ_of_le (hdepth _ (List.mem_map_of_mem hf))
  have hread := (h f hf).reads true (Json.depth_obj_le.mp hfield ("ty", f.ty.toJson) (by simp))
  have hrecord : Json.record? ["name", "ty"] f.toJson
      = some [some (.str f.name), some f.ty.toJson] := rfl
  rw [ofJson?, hrecord]
  simp only [Option.bind_eq_bind, Option.bind_some, Json.required, Json.str?, hread]
  cases f
  rfl

theorem StoredSignature.toJson_eq (sig : StoredSignature) :
    sig.toJson = .obj ([("colonCall", .bool sig.colon),
      ("params", .arr (StoredField.allToJson sig.params))]
      ++ memberUnless sig.vararg?.isNone "vararg" (sig.vararg?.elim .null StoredTy.toJson)
      ++ [("ret", sig.ret.toJson)]
      ++ memberUnless sig.typeParams.isEmpty "typeParams"
        (.arr (sig.typeParams.map TypeParam.toJson))) := by
  obtain ⟨colon, params, vararg?, ret, typeParams⟩ := sig
  cases vararg? <;> rfl

theorem StoredSignature.plain_toJson {sig : StoredSignature}
    (h : ∀ ty ∈ sig.types, ty.RoundTrips) : sig.toJson.Plain := by
  have hparams : ∀ p ∈ sig.params, p.ty.RoundTrips := fun p hp =>
    h p.ty (List.mem_append_left _ (List.mem_map_of_mem hp))
  have hret : sig.ret.RoundTrips := h sig.ret (List.mem_append_right _ List.mem_cons_self)
  have hvararg : (sig.vararg?.elim .null StoredTy.toJson).Plain := by
    cases hv : sig.vararg? with
    | none => exact .null
    | some v =>
      have hmem : v ∈ sig.types := by simp [types, hv]
      exact (h v hmem).plain
  have htypeParams : (Json.arr (sig.typeParams.map TypeParam.toJson)).Plain :=
    .arr (List.forall_mem_map.mpr fun p _ => p.plain_toJson)
  rw [toJson_eq]
  refine .obj ?_
  simp only [List.forall_mem_append, List.forall_mem_cons]
  exact ⟨⟨⟨⟨.bool _, StoredField.plain_allToJson hparams, nofun⟩, forall_mem_memberUnless hvararg⟩,
    hret.plain, nofun⟩, forall_mem_memberUnless htypeParams⟩

theorem StoredSignature.record?_toJson (sig : StoredSignature) :
    Json.record? ["colonCall", "params", "vararg", "ret", "typeParams"] sig.toJson
      = some [some (.bool sig.colon), some (.arr (StoredField.allToJson sig.params)),
        if sig.vararg?.isNone then none else some (sig.vararg?.elim .null StoredTy.toJson),
        some sig.ret.toJson,
        if sig.typeParams.isEmpty then none
        else some (.arr (sig.typeParams.map TypeParam.toJson))] := by
  rw [toJson_eq]
  cases sig.vararg?.isNone <;> cases sig.typeParams.isEmpty <;> rfl

/-- A type that is left out where there is none. No type is written as null. -/
theorem StoredTy.optional_toJson {ty? : Option StoredTy} (h : ∀ ty ∈ ty?, ty.RoundTrips)
    (hroom : ∀ ty ∈ ty?, ty.toJson.depth ≤ room) :
    Json.optional (ofJson? room true)
      (if ty?.isNone then none else some (ty?.elim .null toJson)) = some ty? := by
  cases ty? with
  | none => rfl
  | some ty =>
    have hread := (h ty rfl).reads true (hroom ty rfl)
    have hobject : Json.optional (ofJson? room true) (some ty.toJson)
        = (ofJson? room true ty.toJson).map some := by
      cases ty <;> rfl
    change Json.optional (ofJson? room true) (some ty.toJson) = _
    rw [hobject, hread]
    rfl

theorem StoredSignature.ofJson?_toJson {sig : StoredSignature}
    (h : ∀ ty ∈ sig.types, ty.RoundTrips) (hroom : sig.toJson.depth ≤ room) :
    ofJson? (StoredTy.ofJson? room true) sig.toJson = some sig := by
  have hparams : ∀ p ∈ sig.params, p.ty.RoundTrips := fun p hp =>
    h p.ty (List.mem_append_left _ (List.mem_map_of_mem hp))
  have hret : sig.ret.RoundTrips := h sig.ret (List.mem_append_right _ List.mem_cons_self)
  have hvararg : ∀ v ∈ sig.vararg?, v.RoundTrips := fun v hv =>
    h v (List.mem_append_right _ (List.mem_cons_of_mem _ (Option.mem_toList.mpr hv)))
  have hdepth : sig.toJson.depth ≤ room + 1 := Nat.le_succ_of_le hroom
  rw [toJson_eq, Json.depth_obj_le] at hdepth
  have hreadParams := StoredField.list?_allToJson hparams (hdepth ("params", _) (by simp))
  have hreadRet := hret.reads true (hdepth ("ret", _) (by simp))
  have hreadVararg := StoredTy.optional_toJson hvararg fun v hv =>
    hdepth ("vararg", v.toJson) (by simp [memberUnless, Option.mem_def.mp hv])
  have hreadTypeParams := Json.orDefault_list fun _ =>
    Json.list?_map fun p (_ : p ∈ sig.typeParams) => p.ofJson?_toJson
  have hreadColon : Json.orDefault false Json.bool? (some (.bool sig.colon)) = some sig.colon := rfl
  rw [ofJson?, record?_toJson]
  simp only [Option.bind_eq_bind, Option.bind_some, Json.required, hreadColon, hreadParams,
    hreadVararg, hreadRet, hreadTypeParams]
  cases sig
  rfl

theorem StoredSignature.plain_allToJson {sigs : List StoredSignature}
    (h : ∀ sig ∈ sigs, ∀ ty ∈ sig.types, ty.RoundTrips) : (Json.arr (allToJson sigs)).Plain := by
  rw [allToJson_eq_map]
  exact .arr (List.forall_mem_map.mpr fun sig hsig => plain_toJson (h sig hsig))

theorem StoredSignature.list?_allToJson {sigs : List StoredSignature}
    (h : ∀ sig ∈ sigs, ∀ ty ∈ sig.types, ty.RoundTrips)
    (hroom : (Json.arr (allToJson sigs)).depth ≤ room) :
    Json.list? (ofJson? (StoredTy.ofJson? room true)) (.arr (allToJson sigs)) = some sigs := by
  have hdepth := Json.depth_arr_le hroom
  rw [allToJson_eq_map] at hdepth ⊢
  exact Json.list?_map fun sig hsig =>
    ofJson?_toJson (h sig hsig) (hdepth _ (List.mem_map_of_mem hsig))

end

namespace StoredTy

/-- Types whose flags are bytes. -/
theorem Fits.roundTrips {ty : StoredTy} (h : ty.Fits) : ty.RoundTrips := by
  induction h with
  | unknown => exact .tagged rfl nofun nofun fun _ _ => rfl
  | invalid => exact .tagged rfl nofun nofun fun _ _ => rfl
  | prim name =>
    exact .tagged rfl (by simp) (List.forall_mem_singleton.mpr (.str name)) fun _ _ => rfl
  | @cls stub h =>
    refine .tagged rfl ?_ (ClassStub.plain_members h) fun _ _ => ?_
    · exact ClassStub.key_ne_kind stub
    · simp [ofBody?, ClassStub.ofJson?_members h]
  | @docTable name fields _ ih =>
    refine .tagged rfl (by simp)
      (List.forall_mem_cons.mpr
        ⟨.str name, List.forall_mem_singleton.mpr (StoredField.plain_allToJson ih)⟩)
      fun room hroom => ?_
    have hfields := StoredField.list?_allToJson ih (hroom ("fields", _) (by simp))
    have hrecord : Json.record? ["class_name", "fields"]
        (.obj [("class_name", .str name), ("fields", .arr (StoredField.allToJson fields))])
          = some [some (.str name), some (.arr (StoredField.allToJson fields))] := rfl
    simp [ofBody?, hrecord, Json.required, Json.str?, hfields]
  | @union members _ ih =>
    refine .tagged rfl (by simp) (List.forall_mem_singleton.mpr (plain_allToJson ih))
      fun room hroom => ?_
    have hmembers := list?_allToJson ih (hroom _ (List.mem_singleton_self _))
    have hrecord (j : Json) :
        Json.record? ["members"] (.obj [("members", j)]) = some [some j] := rfl
    simp [ofBody?, hrecord, Json.required, hmembers]
  | @generic base args _ _ ihbase ihargs =>
    refine .tagged rfl (by simp)
      (List.forall_mem_cons.mpr
        ⟨ihbase.plain, List.forall_mem_singleton.mpr (plain_allToJson ihargs)⟩)
      fun room hroom => ?_
    have hbase := ihbase.reads true (hroom ("base", _) (by simp))
    have hargs := list?_allToJson ihargs (hroom ("args", _) (by simp))
    have hrecord (j k : Json) : Json.record? ["base", "args"] (.obj [("base", j), ("args", k)])
        = some [some j, some k] := rfl
    simp [ofBody?, hrecord, Json.required, hbase, hargs]
  | @func main overloads _ ih =>
    obtain ⟨hmain, hoverloads⟩ := List.forall_mem_cons.mp ih
    refine .tagged rfl ?_ ?_ fun room hroom => ?_
    · exact List.forall_mem_cons.mpr ⟨by simp, forall_mem_memberUnless (by simp)⟩
    · exact List.forall_mem_cons.mpr ⟨StoredSignature.plain_toJson hmain,
        forall_mem_memberUnless (StoredSignature.plain_allToJson hoverloads)⟩
    · have hreadMain := StoredSignature.ofJson?_toJson hmain (hroom ("main", _) List.mem_cons_self)
      have hreadOverloads : Json.orDefault []
          (Json.list? (StoredSignature.ofJson? (ofJson? room true)))
          (if overloads.isEmpty then none
          else some (.arr (StoredSignature.allToJson overloads))) = some overloads :=
        Json.orDefault_list fun hne => StoredSignature.list?_allToJson hoverloads
          (hroom ("overloads", _) (by simp [memberUnless, hne]))
      have hrecord : Json.record? ["main", "overloads"] (.obj (("main", main.toJson) ::
          memberUnless overloads.isEmpty "overloads" (.arr (StoredSignature.allToJson overloads))))
            = some [some main.toJson, if overloads.isEmpty then none
              else some (.arr (StoredSignature.allToJson overloads))] := by
        cases overloads.isEmpty <;> rfl
      simp only [ofBody?, hrecord, Option.bind_eq_bind, Option.bind_some, Json.required, hreadMain,
        hreadOverloads]
      rfl
  | @array element _ ih =>
    refine .tagged rfl (by simp) (List.forall_mem_singleton.mpr ih.plain) fun room hroom => ?_
    have helement := ih.reads true (hroom _ (List.mem_singleton_self _))
    have hrecord (j : Json) :
        Json.record? ["element"] (.obj [("element", j)]) = some [some j] := rfl
    simp [ofBody?, hrecord, Json.required, helement]
  | @tuple items _ ih =>
    refine .tagged rfl (by simp) (List.forall_mem_singleton.mpr (plain_allToJson ih))
      fun room hroom => ?_
    have hitems := list?_allToJson ih (hroom _ (List.mem_singleton_self _))
    have hrecord (j : Json) : Json.record? ["items"] (.obj [("items", j)]) = some [some j] := rfl
    simp [ofBody?, hrecord, Json.required, hitems]

end StoredTy

/-! Texts. -/

theorem depth_namesJson (names : List String) : (namesJson names).depth ≤ 1 := by
  rw [namesJson, Json.depth]
  refine Nat.succ_le_succ (Json.depthOfItems_le_iff.mpr (List.forall_mem_map.mpr fun name _ => ?_))
  exact le_rfl

theorem ClassStub.depth_toJson (stub : ClassStub) : stub.toJson.depth ≤ 2 := by
  have hnames (names : List String) := depth_namesJson names
  rw [toJson, Json.depth_obj_le]
  simp only [members, List.forall_mem_append, List.forall_mem_singleton]
  exact ⟨⟨⟨⟨⟨Nat.zero_le _, forall_mem_memberUnless (hnames _)⟩, Nat.zero_le _⟩,
    forall_mem_memberUnless (hnames _)⟩, forall_mem_memberUnless (Nat.zero_le _)⟩, Nat.zero_le _⟩

/-- A stored type that opens no more arrays and objects at once than may be open in a text is read
back from the text that it is written as, and so is every class stub. -/
theorem StoredTy.text_roundTrips :
    (∀ ty : StoredTy, ty.Fits → ty.toJson.depth ≤ Json.maxOpen →
      StoredTy.parse? ty.render = some ty) ∧
    ∀ stub : ClassStub, stub.flags < 256 → ClassStub.parse? stub.render = some stub := by
  constructor
  · intro ty hfits hdepth
    have hround := hfits.roundTrips
    have hjson : Json.parseAll? ty.render = some ty.toJson := hround.plain.parse?_render hdepth
    rw [parse?, hjson]
    exact hround.reads false hdepth
  · intro stub hflags
    have hplain : stub.toJson.Plain := .obj (ClassStub.plain_members hflags)
    have hdepth : stub.toJson.depth ≤ Json.maxOpen := stub.depth_toJson.trans (by decide)
    have hjson : Json.parseRecord? ClassStub.keys stub.render = some stub.toJson :=
      hplain.parse?_render hdepth
    rw [ClassStub.parse?, hjson]
    exact ClassStub.ofJson?_members hflags

/-- Quotes and line ends in names, and fields that are left out. -/
theorem StoredTy.text_roundTrips_method :
    let stub : ClassStub :=
      { className := "Foo", varName := "\"a\"\n", supers := ["Base"], flags := 5 }
    let ty : StoredTy := .func ⟨true, [⟨"self", .cls stub⟩], none, .array (.prim "number"), []⟩ []
    ty.Fits ∧ ty.toJson.depth ≤ Json.maxOpen ∧ StoredTy.parse? ty.render = some ty ∧
    stub.flags < 256 ∧ ClassStub.parse? stub.render = some stub := by
  intro stub ty
  have hflags : stub.flags < 256 := by decide
  have hfits : ty.Fits := by
    refine .func (List.forall_mem_singleton.mpr ?_)
    exact List.forall_mem_cons.mpr
      ⟨.cls hflags, List.forall_mem_singleton.mpr (.array (.prim "number"))⟩
  have hdepth : ty.toJson.depth ≤ Json.maxOpen := by decide
  exact ⟨hfits, hdepth, text_roundTrips.1 ty hfits hdepth, hflags, text_roundTrips.2 stub hflags⟩

end LuaTypes
