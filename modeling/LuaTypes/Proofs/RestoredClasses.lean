import LuaTypes.Proofs.ChainMemo
import LuaTypes.Proofs.Restored

/-!
Restored classes. A class that is stored before its details are read is restored without them if it
has no flags, and reads then as it would have read. With flags it is restored as a class that has
been read and is not declared, so what is declared for it is lost.
-/

namespace LuaTypes

theorem ClassFlags.isEmpty_iff {flags : ClassFlags} : flags.isEmpty = true ↔ flags = {} := by
  obtain ⟨global, anonymous, anonymousTable⟩ := flags
  cases global <;> cases anonymous <;> cases anonymousTable <;> decide

namespace ClassTy

variable {r : Resolver} {memo : ClassMemo} {c : ClassTy}

/-- A class that has not been read reads as its name is declared. -/
theorem detailsIn_eq : c.detailsIn r memo =
    (c.resolved? memo).getD (if r.ready then (r.details? c.name).getD {} else {}) := by
  obtain ⟨name, var, flags, origin, source⟩ := c
  cases source <;> rfl

/-- A class that has been read is not read again. -/
theorem readDetails_of_resolved {details : ClassDetails} (h : c.resolved? memo = some details) :
    c.readDetails r memo = (details, memo) := by
  obtain ⟨name, var, flags, origin, source⟩ := c
  cases source with
  | known _ =>
    obtain rfl := Option.some_inj.mp h
    rfl
  | deferred cell =>
    change memo.read[(name, cell)]? = some details at h
    simp only [readDetails, h]

end ClassTy

namespace ClassStub

variable {memo : ClassMemo}

theorem toClass_name (stub : ClassStub) : (stub.toClass memo).1.name = stub.className := by
  simp only [toClass]
  split <;> rfl

/-- A class is restored with the details that were kept, or with none if these are empty and it has
no flags. -/
theorem resolved?_toClass (stub : ClassStub) (hahead : memo.Ahead) :
    (stub.toClass memo).1.resolved? (stub.toClass memo).2 =
      if stub.details = {} ∧ ClassFlags.ofBits stub.flags = {} then none
      else some stub.details := by
  have hbare : (decide (stub.details = {}) && (ClassFlags.ofBits stub.flags).isEmpty) = true
      ↔ stub.details = {} ∧ ClassFlags.ofBits stub.flags = {} := by
    rw [Bool.and_eq_true, decide_eq_true_eq, ClassFlags.isEmpty_iff]
  simp only [toClass]
  split
  · rename_i h
    rw [if_pos (hbare.mp h)]
    exact hahead stub.className memo.next le_rfl
  · rename_i h
    rw [if_neg (mt hbare.mpr h)]
    rfl

end ClassStub

namespace ClassTy

/-- A restored class is without details if no details were known and it has no flags. A class that
was without details and has no flags reads as it would have read. But with flags it is restored as
one that has been read, with empty details, whatever is declared for it. -/
theorem restored_lazy (memo memo' : ClassMemo) (c : ClassTy) (hahead : memo'.Ahead) :
    let restored := (ClassStub.ofClass memo c).toClass memo'
    (restored.1.resolved? restored.2 = none ↔ memo.known c = {} ∧ c.flags = {}) ∧
    (c.resolved? memo = none → c.flags = {} → ∀ r : Resolver,
      (restored.1.generics r restored.2).1 = (c.generics r memo).1 ∧
      (restored.1.supers r restored.2).1 = (c.supers r memo).1 ∧
      (restored.1.alias? r restored.2).1 = (c.alias? r memo).1) ∧
    (c.resolved? memo = none → c.flags ≠ {} → restored.1.resolved? restored.2 = some {} ∧
      ∀ r : Resolver, restored.1.readDetails r restored.2 = ({}, restored.2)) := by
  intro restored
  have hname : restored.1.name = c.name := ClassStub.toClass_name _
  have hresolved : restored.1.resolved? restored.2
      = if memo.known c = {} ∧ c.flags = {} then none else some (memo.known c) := by
    refine (ClassStub.resolved?_toClass _ hahead).trans ?_
    rw [ClassStub.ofClass, ClassFlags.ofBits_bits]
    rfl
  have hunknown (hnone : c.resolved? memo = none) : memo.known c = {} := by
    rw [ClassMemo.known, hnone, Option.getD_none]
  refine ⟨?_, fun hnone hflags r => ?_, fun hnone hflags => ?_⟩
  · rw [hresolved]
    split <;> simp_all
  · rw [if_pos ⟨hunknown hnone, hflags⟩] at hresolved
    have hread : (restored.1.readDetails r restored.2).1 = (c.readDetails r memo).1 := by
      rw [readDetails_fst, readDetails_fst, detailsIn_eq, detailsIn_eq, hresolved, hnone, hname]
    exact ⟨congrArg ClassDetails.generics hread, congrArg ClassDetails.supers hread,
      congrArg ClassDetails.alias? hread⟩
  · rw [if_neg fun h => hflags h.2, hunknown hnone] at hresolved
    exact ⟨hresolved, fun _ => readDetails_of_resolved hresolved⟩

/-- A class that was met by name, and a class of the same name that a global doubles as. -/
theorem restored_lazy_declaredLater :
    let foo := ClassTy.deferred "Foo" 0
    let global := ClassTy.globalNamed "Foo" 0
    let memo : ClassMemo := { next := 1 }
    let r : Resolver := { Resolver.empty with details? := fun _ => some { supers := ["Base"] } }
    let restored := (ClassStub.ofClass memo foo).toClass memo
    let restoredGlobal := (ClassStub.ofClass memo global).toClass memo
    memo.Ahead ∧ foo.resolved? memo = none ∧ foo.flags = {} ∧
    restored.1.resolved? restored.2 = none ∧ (restored.1.supers r restored.2).1 = ["Base"] ∧
    global.resolved? memo = none ∧ global.flags ≠ {} ∧
    restoredGlobal.1.readDetails r restoredGlobal.2 = ({}, restoredGlobal.2) := by
  intro foo global memo r restored restoredGlobal
  have hahead : memo.Ahead := fun _ _ _ => Std.HashMap.getElem?_empty
  have hnone : foo.resolved? memo = none := Std.HashMap.getElem?_empty
  have hglobal : global.resolved? memo = none := Std.HashMap.getElem?_empty
  have hsupers : (foo.supers r memo).1 = ["Base"] := by
    change (foo.readDetails r memo).1.supers = _
    rw [readDetails_fst, detailsIn_eq, hnone]
    rfl
  obtain ⟨hlazy, hreads, -⟩ := restored_lazy memo memo foo hahead
  obtain ⟨-, -, hlost⟩ := restored_lazy memo memo global hahead
  have hknown : memo.known foo = {} := by
    rw [ClassMemo.known, hnone, Option.getD_none]
  exact ⟨hahead, hnone, rfl, hlazy.mpr ⟨hknown, rfl⟩, (hreads hnone rfl r).2.1.trans hsupers,
    hglobal, by decide, (hlost hglobal (by decide)).2 r⟩

/-- The superclasses that are declared for a global are lost. -/
theorem globalNamed_not_lazy :
    let global := ClassTy.globalNamed "Foo" 0
    let memo : ClassMemo := { next := 1 }
    let r : Resolver := { Resolver.empty with details? := fun _ => some { supers := ["Base"] } }
    let restored := (ClassStub.ofClass memo global).toClass memo
    memo.Ahead ∧ r.ready = true ∧ global.resolved? memo = none ∧
    restored.1.resolved? restored.2 = some {} ∧
    (global.supers r memo).1 = ["Base"] ∧ (restored.1.supers r restored.2).1 = [] := by
  intro global memo r restored
  have hahead : memo.Ahead := fun _ _ _ => Std.HashMap.getElem?_empty
  have hnone : global.resolved? memo = none := Std.HashMap.getElem?_empty
  have hbits : ClassFlags.ofBits (ClassStub.ofClass memo global).flags ≠ {} := by
    rw [ClassStub.ofClass, ClassFlags.ofBits_bits]
    decide
  have hdetails : (ClassStub.ofClass memo global).details = {} := by
    change (ClassMemo.known memo global) = {}
    rw [ClassMemo.known, hnone, Option.getD_none]
  have hresolved : restored.1.resolved? restored.2 = some {} := by
    refine (ClassStub.resolved?_toClass _ hahead).trans ?_
    rw [if_neg fun h => hbits h.2, hdetails]
  refine ⟨hahead, rfl, hnone, hresolved, ?_, ?_⟩
  · change (global.readDetails r memo).1.supers = _
    rw [readDetails_fst, detailsIn_eq, hnone]
    rfl
  · change (restored.1.readDetails r restored.2).1.supers = _
    rw [readDetails_of_resolved hresolved]

end ClassTy

end LuaTypes
