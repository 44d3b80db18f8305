import LuaTypes.Class.Ancestry
import LuaTypes.Ty.Subtype

/-!
Reads of class details. Whatever is asked about classes, however deep inside, comes down to reading
the details of one class after the other, and what is read next depends on nothing but what was read
before. Over any sequence of operations, each with a resolver of its own, the details of a class are
written once: by the first read through a resolver that is ready.
-/

namespace LuaTypes

/-- A computation that does nothing but read the details of classes. -/
inductive Inquiry (α : Type)
  | answer (a : α)
  | read (c : ClassTy) (next : ClassDetails → Inquiry α)

namespace Inquiry

variable {α β γ : Type}

def bind : Inquiry α → (α → Inquiry β) → Inquiry β
  | .answer a, f => f a
  | .read c next, f => .read c fun d => (next d).bind f

instance : Monad Inquiry where
  pure := .answer
  bind := bind

/-- The details of a class. -/
def details (c : ClassTy) : Inquiry ClassDetails := .read c .answer

def run (r : Resolver) : Inquiry α → Reading α
  | .answer a => pure a
  | .read c next => do (next (← c.readDetails r)).run r

@[simp] theorem run_pure (r : Resolver) (a : α) : (pure a : Inquiry α).run r = pure a := rfl

@[simp] theorem run_details (r : Resolver) (c : ClassTy) : (details c).run r = c.readDetails r := rfl

@[simp] theorem run_bind (r : Resolver) (x : Inquiry α) (f : α → Inquiry β) :
    (x >>= f).run r = x.run r >>= fun a => (f a).run r := by
  induction x with
  | answer a => rfl
  | read c next ih =>
    change (c.readDetails r >>= fun d => (next d >>= f).run r) = _
    simp only [ih]
    rfl

end Inquiry

/-! Which inquiry a subtype check is. -/

mutual

/-- Whether a type is a subtype, as an inquiry: only classes beside other classes are read. -/
def Ty.subtypeInquiry (r : Resolver) (a b : Ty) : Inquiry Bool :=
  if a == b || a.isInvalid || b.isInvalid then return true
  else match a, b with
    | .union members, b => Ty.allSubtypeInquiry r members b
    | a, .union members => Ty.subtypeAnyInquiry r a members
    | .generic base _, b => base.subtypeInquiry r b
    | .cls c, .cls target =>
      if target.isUniversalTable then return true
      else do
        let ancestors := ancestorsFrom r [c.name] (r.superClasses (← Inquiry.details c))
        return !r.cancelled && ancestors.any (· == target)
    | .array _, .cls target => return target.isUniversalTable
    | .cls c, .array _ => return (c.origin matches .literal _ _ 0)
    | .cls c, .generic base _ => (Ty.cls c).subtypeInquiry r base
    | .array x, .array y => x.subtypeInquiry r y
    | .func .., .func .. => return true
    | _, _ => return false
termination_by sizeOf a + sizeOf b

def Ty.allSubtypeInquiry (r : Resolver) : List Ty → Ty → Inquiry Bool
  | [], _ => return true
  | a :: rest, b => do
    if ← a.subtypeInquiry r b then Ty.allSubtypeInquiry r rest b else return false
termination_by as b => sizeOf as + sizeOf b

def Ty.subtypeAnyInquiry (r : Resolver) (a : Ty) : List Ty → Inquiry Bool
  | [] => return false
  | b :: rest => do
    if ← a.subtypeInquiry r b then return true else Ty.subtypeAnyInquiry r a rest
termination_by bs => sizeOf a + sizeOf bs

end

theorem Ty.run_subtypeInquiry (r : Resolver) (a b : Ty) :
    (a.subtypeInquiry r b).run r = a.subtype r b := by
  induction a, b using fun motive => Ty.subtype.induct motive
    (fun a bs => (Ty.subtypeAnyInquiry r a bs).run r = Ty.subtypeAny r a bs)
    (fun as b => (Ty.allSubtypeInquiry r as b).run r = Ty.allSubtype r as b) with
  | case1 a b hclose =>
    rw [Ty.subtype.eq_def, Ty.subtypeInquiry.eq_def, if_pos hclose, if_pos hclose]
    rfl
  | case2 members b hfar ih => rw [Ty.subtype, Ty.subtypeInquiry, if_neg hfar, if_neg hfar, ih]
  | case3 a members hunion hfar ih =>
    rw [Ty.subtype, Ty.subtypeInquiry, if_neg hfar, if_neg hfar, ih]
    all_goals exact hunion
  | case4 base args b hunion hfar ih =>
    rw [Ty.subtype, Ty.subtypeInquiry, if_neg hfar, if_neg hfar, ih]
    all_goals exact hunion
  | case5 c target htable hfar =>
    rw [Ty.subtype, Ty.subtypeInquiry, if_neg hfar, if_neg hfar, if_pos htable, if_pos htable]
    rfl
  | case6 c target htable hfar =>
    rw [Ty.subtype, Ty.subtypeInquiry, if_neg hfar, if_neg hfar, if_neg htable, if_neg htable]
    rfl
  | case7 element target hfar =>
    rw [Ty.subtype, Ty.subtypeInquiry, if_neg hfar, if_neg hfar]
    rfl
  | case8 c element hfar =>
    rw [Ty.subtype, Ty.subtypeInquiry, if_neg hfar, if_neg hfar]
    rfl
  | case9 c base args hfar ih => rw [Ty.subtype, Ty.subtypeInquiry, if_neg hfar, if_neg hfar, ih]
  | case10 x y hfar ih => rw [Ty.subtype, Ty.subtypeInquiry, if_neg hfar, if_neg hfar, ih]
  | case11 main overloads main' overloads' hfar =>
    rw [Ty.subtype, Ty.subtypeInquiry, if_neg hfar, if_neg hfar]
    rfl
  | case12 a b hfar =>
    rw [Ty.subtype, Ty.subtypeInquiry, if_neg hfar, if_neg hfar]
    any_goals assumption
    rfl
  | case13 a =>
    rw [Ty.subtypeAny, Ty.subtypeAnyInquiry]
    rfl
  | case14 a b rest ih ihrest =>
    rw [Ty.subtypeAny, Ty.subtypeAnyInquiry, Inquiry.run_bind, ih]
    refine bind_congr fun answer => ?_
    cases answer with
    | true => rfl
    | false => exact ihrest
  | case15 b =>
    rw [Ty.allSubtype, Ty.allSubtypeInquiry]
    rfl
  | case16 a rest b ih ihrest =>
    rw [Ty.allSubtype, Ty.allSubtypeInquiry, Inquiry.run_bind, ih]
    refine bind_congr fun answer => ?_
    cases answer with
    | true => exact ihrest
    | false => rfl

/-! Operations. -/

/-- What can be asked about classes, with the type of the answer. -/
inductive ClassOperation : Type → Type 1
  | details (c : ClassTy) : ClassOperation ClassDetails
  | generics (c : ClassTy) : ClassOperation (List String)
  | superNames (c : ClassTy) : ClassOperation (List String)
  | superTy (c : ClassTy) : ClassOperation (Option Ty)
  | otherName (c : ClassTy) : ClassOperation (Option String)
  | otherNames (globalsAreTypes : Bool) (c : ClassTy) : ClassOperation (List String)
  /-- A walk over the superclasses, whose visitor has a state of its own. -/
  | walk {σ : Type} (cancelled : StateM σ Bool) (visitor : ClassTy → StateM σ Flow) (start : σ)
    (c : ClassTy) : ClassOperation (Flow × σ)
  | subtype (a b : Ty) : ClassOperation Bool

namespace ClassOperation

variable {α : Type}

def perform (r : Resolver) : ClassOperation α → Reading α
  | .details c => c.readDetails r
  | .generics c => c.generics r
  | .superNames c => c.supers r
  | .superTy c => c.super? r
  | .otherName c => c.alias? r
  | .otherNames globalsAreTypes c => c.aliasNames r globalsAreTypes
  | .walk cancelled visitor start c => fun memo =>
    let ((flow, memo), final) := (c.visitAncestors r cancelled visitor memo).run start
    ((flow, final), memo)
  | .subtype a b => a.subtype r b

/-- What is read for an operation, and how the answer comes from it. -/
def inquiry (r : Resolver) : ClassOperation α → Inquiry α
  | .details c => .details c
  | .generics c => do return (← Inquiry.details c).generics
  | .superNames c => do return (← Inquiry.details c).supers
  | .superTy c => do return r.superOf? (← Inquiry.details c)
  | .otherName c => do return (← Inquiry.details c).alias?
  | .otherNames globalsAreTypes c => do
    match (← Inquiry.details c).alias? with
    | none => return []
    | some other =>
      if other = c.name then return []
      else if !c.isGlobal && !c.isAnonymous && globalsAreTypes then
        return [other, globalClassName c.name]
      else return [other]
  | .walk cancelled visitor start c => do
    let ancestors := ancestorsFrom r [c.name] (r.superClasses (← Inquiry.details c))
    return (offerUntil cancelled visitor ancestors).run start
  | .subtype a b => a.subtypeInquiry r b

/-- An operation reads details, and nothing else. -/
theorem run_inquiry (r : Resolver) (op : ClassOperation α) :
    (op.inquiry r).run r = op.perform r := by
  cases op with
  | subtype a b => exact Ty.run_subtypeInquiry r a b
  | otherNames globalsAreTypes c =>
    rw [inquiry, Inquiry.run_bind]
    change _ = (c.readDetails r >>= fun d => (pure d.alias? : Reading (Option String))) >>= _
    rw [bind_assoc]
    refine bind_congr fun d => ?_
    cases d.alias? with
    | none => rfl
    | some other =>
      change _ = if other = c.name then _ else _
      dsimp only
      split
      · rfl
      · split <;> rfl
  | _ => rfl

end ClassOperation

/-! Single reads. -/

deriving instance DecidableEq for DetailsSource

namespace ClassTy

variable {r : Resolver} {memo : ClassMemo} {c : ClassTy}

/-- To read the details the resolver has to be asked for them, and it answers. -/
def consults (c : ClassTy) (r : Resolver) (memo : ClassMemo) : Bool :=
  (c.resolved? memo).isNone && r.ready

end ClassTy

/-! Sequences of operations. -/

/-- One read of details: which class was read, through which resolver, as what, and whether the
resolver was asked. -/
structure DetailRead where
  resolver : Resolver
  cls : ClassTy
  details : ClassDetails
  consulted : Bool

/-- Through a resolver that is not ready. -/
def DetailRead.offline (read : DetailRead) : Bool := !read.resolver.ready

def ClassTy.detailRead (c : ClassTy) (r : Resolver) (memo : ClassMemo) : DetailRead :=
  ⟨r, c, (c.readDetails r memo).1, c.consults r memo⟩

/-- The reads of an inquiry, in order. -/
def Inquiry.reads {α : Type} (r : Resolver) : Inquiry α → ClassMemo → List DetailRead
  | .answer _, _ => []
  | .read c next, memo =>
    c.detailRead r memo :: (next (c.readDetails r memo).1).reads r (c.readDetails r memo).2

/-- An operation that is performed with a resolver. -/
structure ClassUse where
  resolver : Resolver
  Answer : Type
  operation : ClassOperation Answer

namespace ClassMemo

/-- The memo after some uses of classes. -/
def after (memo : ClassMemo) (uses : List ClassUse) : ClassMemo :=
  uses.foldl (fun memo use => (use.operation.perform use.resolver memo).2) memo

/-- All reads of some uses of classes, in order. -/
def history (memo : ClassMemo) : List ClassUse → List DetailRead
  | [] => []
  | use :: rest =>
    (use.operation.inquiry use.resolver).reads use.resolver memo
      ++ history (memo.after [use]) rest

/-- From the first memo the reads lead to the second one. -/
inductive Reads : ClassMemo → List DetailRead → ClassMemo → Prop
  | nil (memo : ClassMemo) : Reads memo [] memo
  | cons (r : Resolver) (c : ClassTy) {memo memo' : ClassMemo} {rest : List DetailRead} :
    Reads (c.readDetails r memo).2 rest memo' → Reads memo (c.detailRead r memo :: rest) memo'

namespace Reads

variable {memo memo' memo'' : ClassMemo} {reads reads' : List DetailRead}

theorem append (h : Reads memo reads memo') (h' : Reads memo' reads' memo'') :
    Reads memo (reads ++ reads') memo'' := by
  induction h with
  | nil => exact h'
  | cons r c _ ih => exact .cons r c (ih h')

theorem inquiry {α : Type} (r : Resolver) (x : Inquiry α) (memo : ClassMemo) :
    Reads memo (x.reads r memo) (x.run r memo).2 := by
  induction x generalizing memo with
  | answer a => exact .nil memo
  | read c next ih => exact .cons r c (ih _ _)

theorem history (memo : ClassMemo) (uses : List ClassUse) :
    Reads memo (memo.history uses) (memo.after uses) := by
  induction uses generalizing memo with
  | nil => exact .nil memo
  | cons use rest ih =>
    have huse := inquiry use.resolver (use.operation.inquiry use.resolver) memo
    rw [use.operation.run_inquiry] at huse
    exact huse.append (ih _)

end Reads

end ClassMemo

end LuaTypes
