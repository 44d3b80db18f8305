import LuaTypes.Proofs.InvariantRewrites
import LuaTypes.Proofs.Joins
import LuaTypes.Proofs.Kept

/-!
Restored types. What is restored from a stored type equals the type, member by member and class by
class, and is stored again as it was.
-/

namespace LuaTypes

/-! What holds of all types that are restored. -/

/-- A property that types get from their parts in all the ways in which they are restored. -/
structure Ty.Restorable (P : Ty → Prop) : Prop where
  unknown : P .unknown
  invalid : P .invalid
  prim (p : Prim) : P (.prim p)
  named {c : ClassTy} : c.origin = .named → P (.cls c)
  docTable {name : String} {fields : List Field} :
    (∀ f ∈ fields, P f.ty) → P (.cls (.docTable name fields))
  unionAll {types : List Ty} : (∀ ty ∈ types, P ty) → P (.unionAll types)
  generic {base : Ty} {args : List Ty} : P base → (∀ arg ∈ args, P arg) → P (.generic base args)
  func {main : Signature} {overloads : List Signature} : (∀ ty ∈ main.types, P ty) →
    (∀ sig ∈ overloads, ∀ ty ∈ sig.types, P ty) → P (.func main overloads)
  array {element : Ty} : P element → P (.array element)
  tuple {items : List Ty} : (∀ item ∈ items, P item) → P (.tuple items)

namespace Ty.Restorable

variable {P : Ty → Prop} {K : Keeping Reading}

theorem toClass (hP : Restorable P) (hfresh : K.Ensures (fun _ => True) freshCell)
    (stub : ClassStub) : K.Ensures (fun c => P (.cls c)) stub.toClass := by
  simp only [ClassStub.toClass]
  split
  · have hdeferred : K.Ensures (fun _ => True) (DetailsSource.deferred <$> freshCell) :=
      K.map hfresh fun _ _ => trivial
    apply K.bind hdeferred
    intro details _
    exact K.pure (hP.named rfl)
  · exact K.pure (hP.named rfl)

mutual

theorem toTy (hP : Restorable P) (hfresh : K.Ensures (fun _ => True) freshCell)
    (ty : StoredTy) : K.Ensures P ty.toTy := by
  cases ty with
  | unknown => exact K.pure hP.unknown
  | invalid => exact K.pure hP.invalid
  | prim name =>
    apply K.pure
    cases Prim.ofName? name with
    | none => exact hP.unknown
    | some p => exact hP.prim p
  | cls stub =>
    apply K.bind (hP.toClass hfresh stub)
    intro c hc
    exact K.pure hc
  | docTable name fields =>
    apply K.bind (hP.toFields hfresh fields)
    intro fields hfields
    exact K.pure (hP.docTable hfields)
  | union members =>
    apply K.bind (hP.toTys hfresh members)
    intro members hmembers
    exact K.pure (hP.unionAll hmembers)
  | generic base args =>
    apply K.bind (hP.toTy hfresh base)
    intro base hbase
    apply K.bind (hP.toTys hfresh args)
    intro args hargs
    exact K.pure (hP.generic hbase hargs)
  | func main overloads =>
    apply K.bind (hP.toSignature hfresh main)
    intro main hmain
    apply K.bind (hP.toSignatures hfresh overloads)
    intro overloads hoverloads
    exact K.pure (hP.func hmain hoverloads)
  | array element =>
    apply K.bind (hP.toTy hfresh element)
    intro element helement
    exact K.pure (hP.array helement)
  | tuple items =>
    apply K.bind (hP.toTys hfresh items)
    intro items hitems
    exact K.pure (hP.tuple hitems)
termination_by structural ty

theorem toTys (hP : Restorable P) (hfresh : K.Ensures (fun _ => True) freshCell)
    (types : List StoredTy) :
    K.Ensures (fun types => ∀ ty ∈ types, P ty) (StoredTy.toTys types) := by
  cases types with
  | nil => exact K.pure nofun
  | cons ty rest =>
    apply K.bind (hP.toTy hfresh ty)
    intro ty hty
    apply K.bind (hP.toTys hfresh rest)
    intro rest hrest
    exact K.pure (List.forall_mem_cons.mpr ⟨hty, hrest⟩)
termination_by structural types

theorem toFields (hP : Restorable P) (hfresh : K.Ensures (fun _ => True) freshCell)
    (fields : List StoredField) :
    K.Ensures (fun fields => ∀ f ∈ fields, P f.ty) (StoredField.toFields fields) := by
  cases fields with
  | nil => exact K.pure nofun
  | cons field rest =>
    obtain ⟨name, ty⟩ := field
    apply K.bind (hP.toTy hfresh ty)
    intro ty hty
    apply K.bind (hP.toFields hfresh rest)
    intro rest hrest
    exact K.pure (List.forall_mem_cons.mpr ⟨hty, hrest⟩)
termination_by structural fields

theorem toSignature (hP : Restorable P) (hfresh : K.Ensures (fun _ => True) freshCell)
    (sig : StoredSignature) :
    K.Ensures (fun sig => ∀ ty ∈ sig.types, P ty) sig.toSignature := by
  obtain ⟨colon, params, vararg?, ret, typeParams⟩ := sig
  cases vararg? with
  | none =>
    apply K.bind (hP.toFields hfresh params)
    intro params hparams
    apply K.bind (hP.toTy hfresh ret)
    intro ret hret
    exact K.pure (Signature.forall_types hparams hret nofun)
  | some vararg =>
    apply K.bind (hP.toFields hfresh params)
    intro params hparams
    apply K.bind (hP.toTy hfresh vararg)
    intro vararg hvararg
    apply K.bind (hP.toTy hfresh ret)
    intro ret hret
    have hsome : ∀ v ∈ some vararg, P v := by
      rintro _ ⟨⟩
      exact hvararg
    exact K.pure (Signature.forall_types hparams hret hsome)
termination_by structural sig

theorem toSignatures (hP : Restorable P) (hfresh : K.Ensures (fun _ => True) freshCell)
    (sigs : List StoredSignature) :
    K.Ensures (fun sigs => ∀ sig ∈ sigs, ∀ ty ∈ sig.types, P ty)
      (StoredSignature.toSignatures sigs) := by
  cases sigs with
  | nil => exact K.pure nofun
  | cons sig rest =>
    apply K.bind (hP.toSignature hfresh sig)
    intro sig hsig
    apply K.bind (hP.toSignatures hfresh rest)
    intro rest hrest
    exact K.pure (List.forall_mem_cons.mpr ⟨hsig, hrest⟩)
termination_by structural sigs

end

end Ty.Restorable

theorem Ty.WellFormed.restorable : Ty.Restorable Ty.WellFormed where
  unknown := .unknown
  invalid := .invalid
  prim := .prim
  named h := .cls_of_docFields (by rw [ClassTy.docFields, h])
  docTable h := .cls h
  unionAll := .unionAll
  generic := .generic
  func := .func
  array := .array
  tuple := .tuple

/-! Doc tables. -/

/-- If the class is a doc table, it is one that was made with its name and its fields. There is no
other way to make one: it has no variable and no flags, and its details are known to be empty. -/
def ClassTy.Made (c : ClassTy) : Prop :=
  ∀ fields, c.origin = .docTable fields → c = .docTable c.name fields

/-- All doc tables in the type are ones that were made as such. -/
inductive Ty.Made : Ty → Prop
  | intro {ty : Ty} : (∀ c ∈ ty.asClass?, c.Made) → (∀ part ∈ ty.parts, part.Made) → ty.Made

namespace Ty.Made

theorem part {ty : Ty} (h : ty.Made) : ∀ part ∈ ty.parts, part.Made := by
  cases h with
  | intro _ hparts => exact hparts

/-- A type that is no class was made of its parts. -/
theorem of_parts {ty : Ty} (hclass : ty.asClass? = none) (h : ∀ part ∈ ty.parts, part.Made) :
    ty.Made := by
  refine .intro (fun c hc => ?_) h
  rw [hclass] at hc
  cases hc

theorem atom {ty : Ty} (hclass : ty.asClass? = none) (hparts : ty.parts = []) : ty.Made := by
  refine of_parts hclass ?_
  rw [hparts]
  exact List.forall_mem_nil _

theorem cls {c : ClassTy} (h : (Ty.cls c).Made) : c.Made := by
  cases h with
  | intro hclass _ => exact hclass c rfl

theorem of_class {c : ClassTy} (hmade : c.Made) (h : ∀ f ∈ c.docFields, f.ty.Made) :
    (Ty.cls c).Made := by
  refine .intro (fun d hd => ?_) (List.forall_mem_map.mpr h)
  obtain rfl : c = d := Option.some_inj.mp hd
  exact hmade

theorem named {c : ClassTy} (h : c.origin = .named) : (Ty.cls c).Made := by
  refine of_class (fun fields hfields => ?_) ?_
  · rw [h] at hfields
    cases hfields
  · rw [ClassTy.docFields, h]
    exact List.forall_mem_nil _

theorem docTable {name : String} {fields : List Field} (h : ∀ f ∈ fields, f.ty.Made) :
    (Ty.cls (.docTable name fields)).Made := by
  refine of_class (fun fields' hfields => ?_) h
  obtain rfl := Origin.docTable.inj hfields
  rfl

theorem func {main : Signature} {overloads : List Signature} (hmain : ∀ ty ∈ main.types, ty.Made)
    (hoverloads : ∀ sig ∈ overloads, ∀ ty ∈ sig.types, ty.Made) :
    (Ty.func main overloads).Made := by
  refine of_parts rfl fun part hpart => ?_
  obtain ⟨sig, hsig, hty⟩ := List.mem_flatMap.mp hpart
  rcases List.mem_cons.mp hsig with rfl | hsig
  · exact hmain part hty
  · exact hoverloads sig hsig part hty

theorem restorable : Ty.Restorable Ty.Made where
  unknown := atom rfl rfl
  invalid := atom rfl rfl
  prim _ := atom rfl rfl
  named := named
  docTable := docTable
  unionAll := by
    refine UnionBuilder.forall_unionAll (atom rfl rfl) (atom rfl rfl) fun members => ?_
    exact ⟨fun h => h.part, fun h => of_parts rfl h⟩
  generic hbase hargs := of_parts rfl (List.forall_mem_cons.mpr ⟨hbase, hargs⟩)
  func := func
  array h := of_parts rfl (List.forall_mem_singleton.mpr h)
  tuple h := of_parts rfl h

end Ty.Made

/-! Restoring what was stored. -/

/-- No cell has been read that is still to be handed out. A cell is read through the class that holds
it, so this is so of every memo that classes are read through. -/
def ClassMemo.Ahead (memo : ClassMemo) : Prop :=
  ∀ (name : String) (cell : Nat), memo.next ≤ cell → memo.read[(name, cell)]? = none

/-- Computations that restore: they take new cells, but read none. -/
def Reading.restoring (memo : ClassMemo) : Keeping Reading :=
  Keeping.values.state fun memo' => memo'.read = memo.read ∧ memo'.Ahead

section

variable {memo memo' : ClassMemo}

/-- What is restored from the type keeps what was kept of it. -/
def Ty.Restores (memo memo' : ClassMemo) (ty : Ty) : Prop :=
  (Reading.restoring memo').Ensures (fun restored => restored.kept memo'.known = ty.kept memo.known)
    (StoredTy.ofTy memo ty).toTy

theorem freshCell_restoring : (Reading.restoring memo).Ensures
    (fun cell => ∀ name : String, memo.read[(name, cell)]? = none) freshCell := by
  rintro memo' ⟨hread, hahead⟩
  refine ⟨fun name => ?_, hread, fun name cell hcell => ?_⟩
  · exact hread ▸ hahead name memo'.next le_rfl
  · exact hahead name cell (Nat.le_of_succ_le hcell)

theorem ClassStub.toClass_restoring (stub : ClassStub) : (Reading.restoring memo).Ensures
    (fun c => ∃ details, c = ⟨stub.className, stub.varName, .ofBits stub.flags, .named, details⟩ ∧
      memo.known c = stub.details) stub.toClass := by
  simp only [toClass]
  split
  · rename_i hempty
    have hdetails : stub.details = {} := by
      simp only [Bool.and_eq_true, decide_eq_true_eq] at hempty
      exact hempty.1
    let Empty (details : DetailsSource) : Prop :=
      memo.known ⟨stub.className, stub.varName, .ofBits stub.flags, .named, details⟩ = {}
    have hdeferred : (Reading.restoring memo).Ensures Empty (.deferred <$> freshCell) := by
      refine (Reading.restoring memo).map freshCell_restoring fun cell hcell => ?_
      change memo.read[(stub.className, cell)]?.getD {} = _
      rw [hcell, Option.getD_none]
    apply (Reading.restoring memo).bind hdeferred
    intro details hempty
    exact (Reading.restoring memo).pure ⟨details, rfl, hempty.trans hdetails.symm⟩
  · exact (Reading.restoring memo).pure ⟨_, rfl, rfl⟩

theorem StoredTy.toTys_restoring {types : List Ty} (h : ∀ ty ∈ types, ty.Restores memo memo') :
    (Reading.restoring memo').Ensures
      (fun restored => Ty.keptAll memo'.known restored = Ty.keptAll memo.known types)
      (StoredTy.toTys (StoredTy.ofTys memo types)) := by
  induction types with
  | nil => exact (Reading.restoring memo').pure rfl
  | cons ty rest ih =>
    obtain ⟨hty, hrest⟩ := List.forall_mem_cons.mp h
    apply (Reading.restoring memo').bind hty
    intro ty' hty'
    apply (Reading.restoring memo').bind (ih hrest)
    intro rest' hrest'
    refine (Reading.restoring memo').pure ?_
    rw [Ty.keptAll, Ty.keptAll, hty', hrest']

theorem StoredField.toFields_restoring {fields : List Field}
    (h : ∀ f ∈ fields, f.ty.Restores memo memo') :
    (Reading.restoring memo').Ensures
      (fun restored => Field.keptAll memo'.known restored = Field.keptAll memo.known fields)
      (StoredField.toFields (StoredField.ofFields memo fields)) := by
  induction fields with
  | nil => exact (Reading.restoring memo').pure rfl
  | cons field rest ih =>
    obtain ⟨hfield, hrest⟩ := List.forall_mem_cons.mp h
    obtain ⟨name, ty⟩ := field
    apply (Reading.restoring memo').bind hfield
    intro ty' hty'
    apply (Reading.restoring memo').bind (ih hrest)
    intro rest' hrest'
    refine (Reading.restoring memo').pure ?_
    rw [Field.keptAll, Field.keptAll, Field.kept, Field.kept, hty', hrest']

theorem StoredSignature.toSignature_restoring {sig : Signature}
    (h : ∀ ty ∈ sig.types, ty.Restores memo memo') :
    (Reading.restoring memo').Ensures
      (fun restored => restored.kept memo'.known = sig.kept memo.known)
      (StoredSignature.ofSignature memo sig).toSignature := by
  obtain ⟨colon, params, vararg?, ret, typeParams⟩ := sig
  have hparams : ∀ p ∈ params, p.ty.Restores memo memo' := fun p hp =>
    h p.ty (List.mem_append_left _ (List.mem_map_of_mem hp))
  have hret : ret.Restores memo memo' := h ret (List.mem_append_right _ List.mem_cons_self)
  cases vararg? with
  | none =>
    apply (Reading.restoring memo').bind (StoredField.toFields_restoring hparams)
    intro params' hparams'
    apply (Reading.restoring memo').bind hret
    intro ret' hret'
    refine (Reading.restoring memo').pure ?_
    rw [Signature.kept, Signature.kept, hparams', hret']
    rfl
  | some vararg =>
    have hvararg : vararg.Restores memo memo' :=
      h vararg (List.mem_append_right _ (List.mem_cons_of_mem _ (List.mem_singleton_self _)))
    apply (Reading.restoring memo').bind (StoredField.toFields_restoring hparams)
    intro params' hparams'
    apply (Reading.restoring memo').bind hvararg
    intro vararg' hvararg'
    apply (Reading.restoring memo').bind hret
    intro ret' hret'
    refine (Reading.restoring memo').pure ?_
    rw [Signature.kept, Signature.kept, Ty.keptOption, Ty.keptOption, hparams', hvararg', hret']

theorem StoredSignature.toSignatures_restoring {sigs : List Signature}
    (h : ∀ sig ∈ sigs, ∀ ty ∈ sig.types, ty.Restores memo memo') :
    (Reading.restoring memo').Ensures
      (fun restored => Signature.keptAll memo'.known restored = Signature.keptAll memo.known sigs)
      (StoredSignature.toSignatures (StoredSignature.ofSignatures memo sigs)) := by
  induction sigs with
  | nil => exact (Reading.restoring memo').pure rfl
  | cons sig rest ih =>
    obtain ⟨hsig, hrest⟩ := List.forall_mem_cons.mp h
    apply (Reading.restoring memo').bind (toSignature_restoring hsig)
    intro sig' hsig'
    apply (Reading.restoring memo').bind (ih hrest)
    intro rest' hrest'
    refine (Reading.restoring memo').pure ?_
    rw [Signature.keptAll, Signature.keptAll, hsig', hrest']

theorem ClassTy.restores {c : ClassTy} (hmade : c.Made)
    (h : ∀ f ∈ c.docFields, f.ty.Restores memo memo') : (Ty.cls c).Restores memo memo' := by
  cases hdoc : c.isDocTable with
  | false =>
    rw [Ty.Restores, StoredTy.ofTy_of_named memo hdoc]
    apply (Reading.restoring memo').bind (ClassStub.toClass_restoring _)
    rintro _ ⟨details, rfl, hknown⟩
    refine (Reading.restoring memo').pure ?_
    rw [Ty.kept, Ty.kept, ClassTy.kept_of_named _ rfl, ClassTy.kept_of_named _ hdoc, hknown,
      ClassStub.ofClass, ClassFlags.ofBits_bits]
    rfl
  | true =>
    obtain ⟨name, var, flags, origin, details⟩ := c
    cases origin with
    | docTable fields =>
      rw [hmade fields rfl]
      apply (Reading.restoring memo').bind (StoredField.toFields_restoring h)
      intro fields' hfields'
      refine (Reading.restoring memo').pure ?_
      simp only [ClassTy.docTable, Ty.kept, ClassTy.kept]
      rw [hfields']
      rfl
    | _ => cases hdoc

end

namespace Ty

/-- Members of a union make up that union again, in their order. -/
theorem Members.unionAll {members : List Ty} (h : Members members) (hlength : 2 ≤ members.length) :
    Ty.unionAll members = .union members := by
  have hcollected (b : UnionBuilder) :
      members.foldl UnionBuilder.add b
        = { b with members := members.foldl UnionBuilder.insert b.members } := by
    have hplain := h.plain
    clear h hlength
    induction members generalizing b with
    | nil => rfl
    | cons m rest ih =>
      obtain ⟨hm, hrest⟩ := List.forall_mem_cons.mp hplain
      have hadd : b.add m = { b with members := UnionBuilder.insert b.members m } := by
        cases m with
        | unknown | invalid | union members => cases hm
        | _ => rfl
      rw [List.foldl_cons, List.foldl_cons, hadd, ih _ hrest]
  have hinserted : members.foldl UnionBuilder.insert [] = members := by
    rw [UnionBuilder.foldl_insert h.distinct]
    simp
  rw [Ty.unionAll, hcollected]
  dsimp only
  rw [hinserted]
  rcases members with _ | ⟨a, _ | ⟨b, rest⟩⟩
  · contradiction
  · contradiction
  · rfl

theorem isPlain_kept (known : ClassTy → ClassDetails) (ty : Ty) :
    (ty.kept known).isPlain = ty.isPlain := by
  cases ty <;> rfl

/-- Types of which is kept what is kept of the members of a union are members of a union. -/
theorem Members.of_kept {known known' : ClassTy → ClassDetails} {members members' : List Ty}
    (h : Members members) (hkept : members'.map (Ty.kept known') = members.map (Ty.kept known)) :
    Members members' where
  plain := by
    intro m hm
    have hm := List.mem_map_of_mem (f := Ty.kept known') hm
    rw [hkept] at hm
    obtain ⟨m', hm', heq⟩ := List.mem_map.mp hm
    rw [← isPlain_kept known', ← heq, isPlain_kept]
    exact h.plain m' hm'
  distinct := by
    have hpairwise (k : ClassTy → ClassDetails) (types : List Ty) :
        (types.map (Ty.kept k)).Pairwise (fun a b => a.same b = false)
          ↔ types.Pairwise fun a b => a.same b = false := by
      simp only [List.pairwise_map, same_kept]
    rw [← hpairwise known', hkept, hpairwise]
    exact h.distinct

variable {memo memo' : ClassMemo}

/-- What is restored keeps what was kept. -/
theorem WellFormed.restores {ty : Ty} (h : ty.WellFormed) (hmade : ty.Made) :
    ty.Restores memo memo' := by
  induction h with
  | @intro ty hcanonical _ ih =>
    have hparts : ∀ part ∈ ty.parts, part.Restores memo memo' := fun part hpart =>
      ih part hpart (hmade.part part hpart)
    cases ty with
    | unknown => exact (Reading.restoring memo').pure rfl
    | invalid => exact (Reading.restoring memo').pure rfl
    | prim p => cases p <;> exact (Reading.restoring memo').pure rfl
    | cls c =>
      exact ClassTy.restores hmade.cls fun f hf => hparts f.ty (List.mem_map_of_mem hf)
    | union members =>
      have hmembers : ∀ m ∈ members, m.Restores memo memo' := hparts
      apply (Reading.restoring memo').bind (StoredTy.toTys_restoring hmembers)
      intro restored hrestored
      refine (Reading.restoring memo').pure ?_
      rw [keptAll_eq_map, keptAll_eq_map] at hrestored
      obtain ⟨hlength, hproper⟩ := hcanonical members rfl
      have hlength' : restored.length = members.length := by
        simpa using congrArg List.length hrestored
      rw [(hproper.of_kept hrestored).unionAll (hlength' ▸ hlength), Ty.kept, Ty.kept,
        keptAll_eq_map, keptAll_eq_map, hrestored]
    | generic base args =>
      obtain ⟨hbase, hargs⟩ := List.forall_mem_cons.mp hparts
      apply (Reading.restoring memo').bind hbase
      intro base' hbase'
      apply (Reading.restoring memo').bind (StoredTy.toTys_restoring hargs)
      intro args' hargs'
      refine (Reading.restoring memo').pure ?_
      rw [Ty.kept, Ty.kept, hbase', hargs']
    | func main overloads =>
      have hsigs : ∀ sig ∈ main :: overloads, ∀ ty ∈ sig.types, ty.Restores memo memo' :=
        fun sig hsig ty hty => hparts ty (List.mem_flatMap.mpr ⟨sig, hsig, hty⟩)
      obtain ⟨hmain, hoverloads⟩ := List.forall_mem_cons.mp hsigs
      apply (Reading.restoring memo').bind (StoredSignature.toSignature_restoring hmain)
      intro main' hmain'
      apply (Reading.restoring memo').bind (StoredSignature.toSignatures_restoring hoverloads)
      intro overloads' hoverloads'
      refine (Reading.restoring memo').pure ?_
      rw [Ty.kept, Ty.kept, hmain', hoverloads']
    | array element =>
      apply (Reading.restoring memo').bind (hparts element (List.mem_singleton_self _))
      intro element' helement'
      refine (Reading.restoring memo').pure ?_
      rw [Ty.kept, Ty.kept, helement']
    | tuple items =>
      have hitems : ∀ item ∈ items, item.Restores memo memo' := hparts
      apply (Reading.restoring memo').bind (StoredTy.toTys_restoring hitems)
      intro items' hitems'
      refine (Reading.restoring memo').pure ?_
      rw [Ty.kept, Ty.kept, hitems']

end Ty

/-- Only the bits with a meaning are kept of the flags. -/
theorem ClassFlags.bits_ofBits (n : Nat) : (ofBits n).bits = n &&& 7 := by
  have hmod : n &&& 7 = n % 8 := Nat.and_two_pow_sub_one_eq_mod n 3
  simp only [hmod, ofBits, bits, Nat.toNat_testBit]
  omega

/-- A type that is stored and restored equals what it was, with the members of its unions in their
order, and with the names, variables, flags, fields and known details of its classes. A class that
is restored is stored with the flags that have a meaning. And what is restored from anything, once
it is stored, is stored in the same way from then on. -/
theorem StoredTy.restored :
    (∀ (memo memo' : ClassMemo) (ty : Ty), ty.WellFormed → ty.Made → memo'.Ahead →
      let restored := (StoredTy.ofTy memo ty).toTy memo'
      (restored.1 == ty) = true ∧ restored.1.kept restored.2.known = ty.kept memo.known) ∧
    (∀ (memo : ClassMemo) (stub : ClassStub), memo.Ahead →
      let restored := stub.toClass memo
      ClassStub.ofClass restored.2 restored.1 = { stub with flags := stub.flags &&& 7 }) ∧
    ∀ (memo : ClassMemo) (stored : StoredTy), memo.Ahead →
      let first := stored.toTy memo
      let again := StoredTy.ofTy first.2 first.1
      let second := again.toTy first.2
      StoredTy.ofTy second.2 second.1 = again := by
  have hrestored (memo memo' : ClassMemo) (ty : Ty) (h : ty.WellFormed) (hmade : ty.Made)
      (hahead : memo'.Ahead) :
      let restored := (StoredTy.ofTy memo ty).toTy memo'
      restored.1.kept restored.2.known = ty.kept memo.known := by
    obtain ⟨hkept, hread, -⟩ := h.restores hmade memo' ⟨rfl, hahead⟩
    dsimp only
    rwa [ClassMemo.known_congr hread]
  refine ⟨fun memo memo' ty h hmade hahead => ?_, fun memo stub hahead => ?_,
    fun memo stored hahead => ?_⟩
  · have hkept := hrestored memo memo' ty h hmade hahead
    refine ⟨?_, hkept⟩
    change Ty.same _ ty = true
    rw [← Ty.same_kept _ memo.known, hkept, Ty.same_kept]
    exact ty.same_refl
  · obtain ⟨⟨details, hc, hknown⟩, hread, -⟩ := stub.toClass_restoring memo ⟨rfl, hahead⟩
    rw [← ClassMemo.known_congr hread] at hknown
    change ClassStub.mk _ (ClassMemo.known _ _).generics _ (ClassMemo.known _ _).supers
      (ClassMemo.known _ _).alias? _ = _
    rw [hknown, hc, ← ClassFlags.bits_ofBits]
    rfl
  · intro first again second
    have hfresh : (Reading.restoring memo).Ensures (fun _ => True) freshCell :=
      (Reading.restoring memo).imp freshCell_restoring fun _ _ => trivial
    have hwellFormed := (Ty.WellFormed.restorable.toTy hfresh stored memo ⟨rfl, hahead⟩).1
    obtain ⟨hmade, -, hahead⟩ := Ty.Made.restorable.toTy hfresh stored memo ⟨rfl, hahead⟩
    have hkept := hrestored first.2 first.2 first.1 hwellFormed hmade hahead
    rw [← StoredTy.ofTy_kept _ {}, hkept, StoredTy.ofTy_kept]

/-- A union of a class that has been read and of a doc table, a class with flags of which only three
have a meaning, and a union with a member that no type has. -/
theorem StoredTy.restored_union :
    let foo : Ty := .cls (.deferred "Foo" 0)
    let table : Ty := .cls (.docTable "10|a.lua|3" [⟨"x", .number⟩])
    let ty : Ty := .union [foo, table]
    let memo : ClassMemo := { next := 1, read := .ofList [(("Foo", 0), { generics := ["T"] })] }
    let stub : ClassStub := { className := "Foo", varName := "foo", flags := 255 }
    let new : ClassMemo := {}
    let restored := (StoredTy.ofTy memo ty).toTy new
    let flagged := stub.toClass new
    let first := (StoredTy.union [.prim "number", .prim "thing", .cls stub]).toTy new
    let second := (StoredTy.ofTy first.2 first.1).toTy first.2
    ty.WellFormed ∧ ty.Made ∧ new.Ahead ∧
    ((restored.1 == ty) = true ∧ restored.1.kept restored.2.known = ty.kept memo.known) ∧
    ClassStub.ofClass flagged.2 flagged.1 = { stub with flags := 7 } ∧
    StoredTy.ofTy second.2 second.1 = StoredTy.ofTy first.2 first.1 := by
  intro foo table ty memo stub new restored flagged first second
  have hfoo : foo.WellFormed := .cls_of_docFields rfl
  have htable : table.WellFormed := .cls (List.forall_mem_singleton.mpr (.prim _))
  have hfooMade : foo.Made := .named rfl
  have htableMade : table.Made := .docTable (List.forall_mem_singleton.mpr (.atom rfl rfl))
  have hwellFormed : ty.WellFormed := .pair hfoo htable rfl
  have hmade : ty.Made :=
    .of_parts rfl (List.forall_mem_cons.mpr ⟨hfooMade, List.forall_mem_singleton.mpr htableMade⟩)
  have hahead : new.Ahead := fun _ _ _ => Std.HashMap.getElem?_empty
  have hmask : stub.flags &&& 7 = 7 := by decide
  have hflagged := StoredTy.restored.2.1 new stub hahead
  rw [hmask] at hflagged
  exact ⟨hwellFormed, hmade, hahead, StoredTy.restored.1 memo new ty hwellFormed hmade hahead,
    hflagged, StoredTy.restored.2.2 new _ hahead⟩

end LuaTypes
