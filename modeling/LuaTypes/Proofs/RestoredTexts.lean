import LuaTypes.Proofs.Restored
import LuaTypes.Ty.Display

/-!
Texts of restored types. A type reads the same after it was stored and restored exactly if no table
literal is printed in it: a table literal is restored as a class of its name, whose variable has no
name, and a class with a variable reads as the variable.
-/

namespace LuaTypes

/-! Printed classes. -/

/-- The parts that the text of a type is made from. Overloads are not printed. -/
def Ty.printedParts : Ty → List Ty
  | .func main _ => main.types
  | ty => ty.parts

/-- The class is printed in the type. -/
inductive Ty.Prints (c : ClassTy) : Ty → Prop
  | here : Ty.Prints c (.cls c)
  | part {ty part : Ty} : part ∈ ty.printedParts → part.Prints c → ty.Prints c

/-- A table literal is printed in the type. -/
def Ty.PrintsLiteral (ty : Ty) : Prop := ∃ c, ty.Prints c ∧ c.isTableLiteral = true

/-- If the class is a table literal, it is one that was made for a table in a file. -/
def ClassTy.MadeLiteral (c : ClassTy) : Prop :=
  ∀ file node fieldCount, c.origin = .literal file node fieldCount →
    ∃ path offset, c = .tableLiteral path file node offset fieldCount

namespace Ty

theorem mem_parts_of_printed {ty part : Ty} (h : part ∈ ty.printedParts) : part ∈ ty.parts := by
  cases ty with
  | func main overloads => exact List.mem_append_left _ h
  | _ => exact h

/-- What holds of the class itself and of all classes that are printed in the parts. -/
theorem forall_printed {ty : Ty} {Q : ClassTy → Prop} (hclass : ∀ c, ty = .cls c → Q c)
    (hparts : ∀ part ∈ ty.printedParts, ∀ c, part.Prints c → Q c) : ∀ c, ty.Prints c → Q c := by
  rintro c (_ | ⟨hpart, hprints⟩)
  · exact hclass c rfl
  · exact hparts _ hpart c hprints

/-- A type that is no table literal prints one if a part of it does. -/
theorem printsLiteral_iff {ty : Ty} (h : ∀ c, ty = .cls c → c.isTableLiteral = false) :
    ty.PrintsLiteral ↔ ∃ part ∈ ty.printedParts, part.PrintsLiteral := by
  constructor
  · rintro ⟨c, hprints, hliteral⟩
    cases hprints with
    | here => exact absurd (h c rfl) (by rw [hliteral]; decide)
    | part hpart hprints => exact ⟨_, hpart, c, hprints, hliteral⟩
  · rintro ⟨part, hpart, c, hprints, hliteral⟩
    exact ⟨c, .part hpart hprints, hliteral⟩

theorem printsLiteral_parts {ty : Ty} (h : ty.asClass? = none) :
    ty.PrintsLiteral ↔ ∃ part ∈ ty.printedParts, part.PrintsLiteral := by
  refine printsLiteral_iff fun c hc => ?_
  rw [hc] at h
  cases h

theorem printsLiteral_cls {c : ClassTy} (h : c.isTableLiteral = false) :
    (cls c).PrintsLiteral ↔ ∃ f ∈ c.docFields, f.ty.PrintsLiteral := by
  refine (printsLiteral_iff fun d hd => Ty.cls.inj hd ▸ h).trans ?_
  change (∃ part ∈ c.docFields.map (·.ty), part.PrintsLiteral) ↔ _
  simp only [List.mem_map, exists_exists_and_eq_and]

theorem not_printsLiteral_of_parts {ty : Ty} (h : ∀ c, ty = .cls c → c.isTableLiteral = false)
    (hparts : ∀ part ∈ ty.printedParts, ¬ part.PrintsLiteral) : ¬ ty.PrintsLiteral := by
  rw [printsLiteral_iff h]
  rintro ⟨part, hpart, hprints⟩
  exact hparts part hpart hprints

theorem not_printsLiteral_unknown : ¬ PrintsLiteral .unknown :=
  not_printsLiteral_of_parts nofun nofun

theorem not_printsLiteral_invalid : ¬ PrintsLiteral .invalid :=
  not_printsLiteral_of_parts nofun nofun

theorem not_printsLiteral_prim (p : Prim) : ¬ PrintsLiteral (.prim p) :=
  not_printsLiteral_of_parts nofun nofun

theorem madeLiteral_of_not_printsLiteral {ty : Ty} (h : ¬ ty.PrintsLiteral) :
    ∀ c, ty.Prints c → c.MadeLiteral := by
  intro c hc file node fieldCount horigin
  exact absurd ⟨c, hc, by rw [ClassTy.isTableLiteral, horigin]⟩ h

/-- No table literal is restored. -/
theorem not_printsLiteral_restorable : Restorable fun ty => ¬ ty.PrintsLiteral where
  unknown := not_printsLiteral_unknown
  invalid := not_printsLiteral_invalid
  prim := not_printsLiteral_prim
  named {c} h := by
    have hliteral : c.isTableLiteral = false := by rw [ClassTy.isTableLiteral, h]
    rw [printsLiteral_cls hliteral, ClassTy.docFields, h]
    rintro ⟨_, hf, _⟩
    exact List.not_mem_nil hf
  docTable h := by
    rw [printsLiteral_cls rfl]
    rintro ⟨f, hf, hprints⟩
    exact h f hf hprints
  unionAll {types} h := by
    have hunion (members : List Ty) :
        ¬ PrintsLiteral (.union members) ↔ ∀ m ∈ members, ¬ m.PrintsLiteral := by
      rw [printsLiteral_parts rfl]
      exact not_exists.trans (forall_congr' fun _ => not_and)
    exact UnionBuilder.forall_unionAll (P := fun ty => ¬ ty.PrintsLiteral)
      not_printsLiteral_unknown not_printsLiteral_invalid hunion h
  generic hbase hargs :=
    not_printsLiteral_of_parts nofun (List.forall_mem_cons.mpr ⟨hbase, hargs⟩)
  func hmain _ := not_printsLiteral_of_parts nofun hmain
  array h := not_printsLiteral_of_parts nofun (List.forall_mem_singleton.mpr h)
  tuple h := not_printsLiteral_of_parts nofun h

end Ty

/-! Shortened texts. -/

/-- The first text is shorter than the second one if something is lost, else it is the same. -/
structure Shortened (lost : Prop) (short long : String) : Prop where
  shorter : lost → short.length < long.length
  same : ¬ lost → short = long

namespace Shortened

variable {lost lost' : Prop} {short short' long long' : String}

theorem refl (h : ¬ lost) (text : String) : Shortened lost text text :=
  ⟨fun hlost => absurd hlost h, fun _ => rfl⟩

theorem length_le (h : Shortened lost short long) : short.length ≤ long.length := by
  by_cases hlost : lost
  · exact (h.shorter hlost).le
  · exact (congrArg String.length (h.same hlost)).le

theorem congr (h : Shortened lost short long) (hiff : lost' ↔ lost) : Shortened lost' short long :=
  ⟨fun hlost => h.shorter (hiff.mp hlost), fun hlost => h.same (mt hiff.mpr hlost)⟩

theorem append (h : Shortened lost short long) (h' : Shortened lost' short' long') :
    Shortened (lost ∨ lost') (short ++ short') (long ++ long') where
  shorter := by
    have hle := h.length_le
    have hle' := h'.length_le
    rw [String.length_append, String.length_append]
    rintro (hlost | hlost)
    · exact Nat.add_lt_add_of_lt_of_le (h.shorter hlost) hle'
    · exact Nat.add_lt_add_of_le_of_lt hle (h'.shorter hlost)
  same hlost := by rw [h.same fun hl => hlost (.inl hl), h'.same fun hl => hlost (.inr hl)]

theorem around (h : Shortened lost short long) (before after : String) :
    Shortened lost (before ++ short ++ after) (before ++ long ++ after) := by
  refine (((refl not_false before).append h).append (refl not_false after)).congr ?_
  rw [or_false, false_or]

theorem intercalate {α : Type} {items : List α} {lost : α → Prop} {short long : α → String}
    (sep : String) (h : ∀ a ∈ items, Shortened (lost a) (short a) (long a)) :
    Shortened (∃ a ∈ items, lost a) (sep.intercalate (items.map short))
      (sep.intercalate (items.map long)) := by
  induction items with
  | nil => exact refl (by simp) _
  | cons a rest ih =>
    obtain ⟨ha, hrest⟩ := List.forall_mem_cons.mp h
    cases rest with
    | nil => simpa [String.intercalate_singleton] using ha
    | cons b rest =>
      simp only [List.map_cons, String.intercalate_cons_cons]
      refine ((ha.append (refl not_false sep)).append (ih hrest)).congr ?_
      simp

end Shortened

/-! Texts of what is kept. -/

/-- How a field or a parameter is printed. -/
def Field.text (f : Field) : String := f.name ++ ": " ++ f.ty.text

/-- The parameters that are printed, where further arguments stand as one named by dots. -/
def Signature.printedParams (sig : Signature) : List Field :=
  sig.params ++ sig.vararg?.toList.map (Field.mk "...")

theorem Ty.texts_eq_map (types : List Ty) : Ty.texts types = types.map Ty.text := by
  induction types with
  | nil => rfl
  | cons ty rest ih => rw [Ty.texts, ih, List.map_cons]

theorem Field.texts_eq_map (fields : List Field) : Field.texts fields = fields.map Field.text := by
  induction fields with
  | nil => rfl
  | cons f rest ih =>
    obtain ⟨name, ty⟩ := f
    rw [Field.texts, ih, List.map_cons, Field.text]

theorem Signature.text_eq (sig : Signature) : sig.text =
    "fun(" ++ ", ".intercalate (sig.printedParams.map Field.text) ++ ")"
      ++ returnText sig.ret sig.ret.text := by
  obtain ⟨colon, params, vararg?, ret, typeParams⟩ := sig
  cases vararg? with
  | none =>
    rw [Signature.text, Field.texts_eq_map, printedParams, Option.toList_none, List.map_nil,
      List.append_nil]
  | some vararg =>
    rw [Signature.text, Field.texts_eq_map, printedParams, Option.toList_some, List.map_append]
    rfl

section

variable {known : ClassTy → ClassDetails}

/-- What is printed of what is kept of the type is what is printed of the type, less its table
literals. -/
def Ty.KeepsText (known : ClassTy → ClassDetails) (ty : Ty) : Prop :=
  Shortened ty.PrintsLiteral (ty.kept known).text ty.text

theorem Field.keepsText {fields : List Field} (h : ∀ f ∈ fields, f.ty.KeepsText known) :
    Shortened (∃ f ∈ fields, f.ty.PrintsLiteral)
      (", ".intercalate (fields.map fun f => (f.kept known).text))
      (", ".intercalate (fields.map Field.text)) := by
  refine .intercalate ", " fun f hf => ?_
  obtain ⟨name, ty⟩ := f
  have hfield := (h ⟨name, ty⟩ hf).around (name ++ ": ") ""
  rwa [String.append_empty, String.append_empty] at hfield

theorem Signature.printedParams_kept (sig : Signature) :
    (sig.kept known).printedParams = sig.printedParams.map (Field.kept known) := by
  obtain ⟨colon, params, vararg?, ret, typeParams⟩ := sig
  rw [Signature.kept, printedParams, printedParams, Field.keptAll_eq_map, List.map_append]
  cases vararg? <;> rfl

theorem Signature.ret_kept (sig : Signature) : (sig.kept known).ret = sig.ret.kept known := by
  obtain ⟨colon, params, vararg?, ret, typeParams⟩ := sig
  rfl

/-- The result of a function is left out or printed, whether or not it is restored. -/
theorem Ty.KeepsText.returned {ret : Ty} (h : ret.KeepsText known) :
    Shortened ret.PrintsLiteral (returnText (ret.kept known) (ret.kept known).text)
      (returnText ret ret.text) := by
  have hprinted := h.around ": " ""
  rw [String.append_empty, String.append_empty] at hprinted
  cases ret with
  | unknown => exact .refl not_printsLiteral_unknown _
  | prim p => exact .refl (not_printsLiteral_prim p) _
  | _ => exact hprinted

theorem Ty.KeepsText.element {element : Ty} (h : element.KeepsText known) :
    Shortened element.PrintsLiteral (arrayText (element.kept known) (element.kept known).text)
      (arrayText element element.text) := by
  have hbare := h.around "" "[]"
  rw [String.empty_append, String.empty_append] at hbare
  cases element with
  | union members => exact h.around "(" ")[]"
  | func main overloads => exact h.around "(" ")[]"
  | _ => exact hbare

theorem Signature.keepsText {sig : Signature} (h : ∀ ty ∈ sig.types, ty.KeepsText known) :
    Shortened (∃ ty ∈ sig.types, ty.PrintsLiteral) (sig.kept known).text sig.text := by
  have hparams : ∀ f ∈ sig.printedParams, f.ty.KeepsText known := by
    refine List.forall_mem_append.mpr ⟨fun f hf => ?_, List.forall_mem_map.mpr fun v hv => ?_⟩
    · exact h f.ty (List.mem_append_left _ (List.mem_map_of_mem hf))
    · exact h v (List.mem_append_right _ (List.mem_cons_of_mem _ hv))
  have hret : sig.ret.KeepsText known := h sig.ret (List.mem_append_right _ List.mem_cons_self)
  have hkeeps := ((Field.keepsText hparams).around "fun(" ")").append hret.returned
  rw [text_eq, text_eq, printedParams_kept, List.map_map, ret_kept]
  refine hkeeps.congr ?_
  simp only [types, printedParams, List.mem_append, or_and_right, exists_or,
    List.exists_mem_cons_iff, List.mem_map, exists_exists_and_eq_and]
  rw [← or_assoc, or_right_comm]

namespace Ty

/-- What is kept of a type prints as the type, but shorter by its table literals. -/
theorem WellFormed.keepsText {ty : Ty} (h : ty.WellFormed)
    (hliterals : ∀ c, ty.Prints c → c.MadeLiteral) : ty.KeepsText known := by
  induction h with
  | @intro ty _ _ ih =>
    have hparts : ∀ part ∈ ty.printedParts, part.KeepsText known := fun part hpart =>
      ih part (mem_parts_of_printed hpart) fun c hc => hliterals c (.part hpart hc)
    cases ty with
    | unknown => exact .refl not_printsLiteral_unknown _
    | invalid => exact .refl not_printsLiteral_invalid _
    | prim p => exact .refl (not_printsLiteral_prim p) _
    | cls c =>
      obtain ⟨name, var, flags, origin, details⟩ := c
      cases origin with
      | named => exact .refl (not_printsLiteral_restorable.named rfl) _
      | literal file node fieldCount =>
        obtain ⟨path, offset, hmade⟩ := hliterals _ .here file node fieldCount rfl
        rw [hmade]
        have hshorter : "".length < tableWord.length := by decide
        exact ⟨fun _ => hshorter, fun h => absurd ⟨_, .here, rfl⟩ h⟩
      | docTable fields =>
        have hfields : ∀ f ∈ fields, f.ty.KeepsText known := List.forall_mem_map.mp hparts
        have hkeeps := (Field.keepsText hfields).around "\x7b " " \x7d"
        simp only [KeepsText, kept, text, ClassTy.kept, ClassTy.text, Field.texts_eq_map,
          Field.keptAll_eq_map, List.map_map]
        exact hkeeps.congr (printsLiteral_cls rfl)
    | union members =>
      have hmembers : ∀ m ∈ members, m.KeepsText known := hparts
      refine Shortened.congr ?_ (printsLiteral_parts rfl)
      rw [kept, text, text, texts_eq_map, texts_eq_map, keptAll_eq_map, List.map_map]
      exact .intercalate "|" hmembers
    | generic base args =>
      obtain ⟨hbase, hargs⟩ := List.forall_mem_cons.mp hparts
      refine Shortened.congr ?_ (printsLiteral_parts rfl)
      rw [kept, text, text, texts_eq_map, texts_eq_map, keptAll_eq_map, List.map_map]
      have hkeeps := hbase.append ((Shortened.intercalate ", " hargs).around "<" ">")
      simp only [← String.append_assoc] at hkeeps
      exact hkeeps.congr (List.exists_mem_cons_iff _ _ _)
    | func main overloads =>
      refine Shortened.congr ?_ (printsLiteral_parts rfl)
      exact Signature.keepsText hparts
    | array element =>
      have helement : element.KeepsText known := hparts element (List.mem_singleton_self _)
      refine helement.element.congr ?_
      refine (printsLiteral_parts rfl).trans ?_
      simp [printedParts, parts]
    | tuple items =>
      have hitems : ∀ item ∈ items, item.KeepsText known := hparts
      refine Shortened.congr ?_ (printsLiteral_parts rfl)
      rw [kept, text, text, texts_eq_map, texts_eq_map, keptAll_eq_map, List.map_map]
      exact (Shortened.intercalate ", " hitems).around "(" ")"

end Ty

end

/-- A type that is stored and restored reads the same exactly if no table literal is printed in
it. -/
theorem StoredTy.restored_text_iff {memo memo' : ClassMemo} {ty : Ty} (h : ty.WellFormed)
    (hmade : ty.Made) (hliterals : ∀ c, ty.Prints c → c.MadeLiteral) (hahead : memo'.Ahead) :
    ((StoredTy.ofTy memo ty).toTy memo').1.text = ty.text ↔ ¬ ty.PrintsLiteral := by
  have hrestores : ty.Restores memo memo' := h.restores hmade
  obtain ⟨hkept, -, -⟩ := hrestores memo' ⟨rfl, hahead⟩
  have hfresh : (Reading.restoring memo').Ensures (fun _ => True) freshCell :=
    (Reading.restoring memo').imp freshCell_restoring fun _ _ => trivial
  have hrestored :=
    (Ty.WellFormed.restorable.toTy hfresh (StoredTy.ofTy memo ty) memo' ⟨rfl, hahead⟩).1
  have hnone :=
    (Ty.not_printsLiteral_restorable.toTy hfresh (StoredTy.ofTy memo ty) memo' ⟨rfl, hahead⟩).1
  generalize ((StoredTy.ofTy memo ty).toTy memo').1 = restored at hkept hrestored hnone
  have hsame : (restored.kept memo'.known).text = restored.text :=
    (hrestored.keepsText (Ty.madeLiteral_of_not_printsLiteral hnone)).same hnone
  have hkeeps : Shortened ty.PrintsLiteral restored.text ty.text := by
    rw [← hsame, hkept]
    exact h.keepsText hliterals
  refine ⟨fun heq hprints => ?_, hkeeps.same⟩
  exact (hkeeps.shorter hprints).ne (congrArg String.length heq)

/-- A function that takes a doc table, with an overload that takes a table literal, and a union of
the table literal. -/
theorem StoredTy.restored_text_iff_overload :
    let table : Ty := .cls (.docTable "10|a.lua|3" [⟨"x", .number⟩])
    let literal : Ty := .cls (.tableLiteral "a.lua" 0 1 4 2)
    let func : Ty :=
      .func ⟨false, [⟨"t", table⟩], none, .nil, []⟩ [⟨false, [⟨"t", literal⟩], none, .nil, []⟩]
    let union : Ty := .union [.number, literal]
    let memo : ClassMemo := {}
    memo.Ahead ∧
    (func.WellFormed ∧ func.Made ∧ (∀ c, func.Prints c → c.MadeLiteral) ∧
      ((StoredTy.ofTy memo func).toTy memo).1.text = func.text) ∧
    (union.WellFormed ∧ union.Made ∧ (∀ c, union.Prints c → c.MadeLiteral) ∧
      ((StoredTy.ofTy memo union).toTy memo).1.text ≠ union.text) := by
  intro table literal func union memo
  have hahead : memo.Ahead := fun _ _ _ => Std.HashMap.getElem?_empty
  have htable : table.WellFormed := .cls (List.forall_mem_singleton.mpr (.prim _))
  have hliteral : literal.WellFormed := .cls_of_docFields rfl
  have htableMade : table.Made := .docTable (List.forall_mem_singleton.mpr (.atom rfl rfl))
  have hliteralMade : literal.Made := .of_class nofun nofun
  have hnilMade : Ty.Made .nil := .atom rfl rfl
  have hfunc : func.WellFormed := .func
    (List.forall_mem_cons.mpr ⟨htable, List.forall_mem_singleton.mpr (.prim _)⟩)
    (List.forall_mem_singleton.mpr
      (List.forall_mem_cons.mpr ⟨hliteral, List.forall_mem_singleton.mpr (.prim _)⟩))
  have hfuncMade : func.Made := .func
    (List.forall_mem_cons.mpr ⟨htableMade, List.forall_mem_singleton.mpr hnilMade⟩)
    (List.forall_mem_singleton.mpr
      (List.forall_mem_cons.mpr ⟨hliteralMade, List.forall_mem_singleton.mpr hnilMade⟩))
  have hfuncPrints : ¬ func.PrintsLiteral := by
    have hparam : ¬ table.PrintsLiteral := Ty.not_printsLiteral_restorable.docTable
      (List.forall_mem_singleton.mpr (Ty.not_printsLiteral_prim _))
    refine Ty.not_printsLiteral_of_parts nofun ?_
    exact List.forall_mem_cons.mpr
      ⟨hparam, List.forall_mem_singleton.mpr (Ty.not_printsLiteral_prim _)⟩
  have hfuncLiterals := Ty.madeLiteral_of_not_printsLiteral hfuncPrints
  have hunion : union.WellFormed := .pair (.prim _) hliteral rfl
  have hunionMade : union.Made := .of_parts rfl
    (List.forall_mem_cons.mpr ⟨.atom rfl rfl, List.forall_mem_singleton.mpr hliteralMade⟩)
  have hunionLiterals : ∀ c, union.Prints c → c.MadeLiteral := by
    refine Ty.forall_printed nofun (List.forall_mem_cons.mpr
      ⟨Ty.madeLiteral_of_not_printsLiteral (Ty.not_printsLiteral_prim _),
        List.forall_mem_singleton.mpr (Ty.forall_printed (fun c hc => ?_) nofun)⟩)
    obtain rfl := Ty.cls.inj hc
    rintro file node fieldCount ⟨⟩
    exact ⟨"a.lua", 4, rfl⟩
  have hunionPrints : union.PrintsLiteral :=
    ⟨_, .part (List.mem_cons_of_mem _ (List.mem_singleton_self _)) .here, rfl⟩
  exact ⟨hahead,
    ⟨hfunc, hfuncMade, hfuncLiterals,
      (restored_text_iff hfunc hfuncMade hfuncLiterals hahead).mpr hfuncPrints⟩,
    ⟨hunion, hunionMade, hunionLiterals, fun heq =>
      (restored_text_iff hunion hunionMade hunionLiterals hahead).mp heq hunionPrints⟩⟩

/-- A table literal reads as nothing. -/
theorem StoredTy.restored_text_tableLiteral :
    let ty : Ty := .cls (.tableLiteral "a.lua" 0 1 4 2)
    ty.WellFormed ∧ ty.Made ∧ ty.text = "table" ∧
    ((StoredTy.ofTy {} ty).toTy {}).1.text = "" :=
  ⟨.cls_of_docFields rfl, .of_class nofun nofun, by decide +kernel, by decide +kernel⟩

end LuaTypes
