import LuaTypes.Ty.Basic

/-!
Equality of types. A class is its name and flags, a union is the set of its members, and everything
else compares part by part. It is a Boolean relation and not equality of values: a class read from
two places is one class, whatever is known about it at either place.
-/

namespace LuaTypes

/-- Same name and same flags; neither the variable nor the origin nor the details count. -/
def ClassTy.same (c d : ClassTy) : Bool := c.name == d.name && c.flags == d.flags

instance : BEq ClassTy := ⟨ClassTy.same⟩

mutual

def Ty.same : Ty → Ty → Bool
  | .unknown, .unknown | .invalid, .invalid => true
  | .prim p, .prim q => p == q
  | .cls c, .cls d => c == d
  | .union ms, .union ns => ms.length == ns.length && Ty.allIn ms ns
  | .generic b as, .generic c bs => b.same c && Ty.allSame as bs
  | .func m os, .func n ps => m.same n && Signature.allSame os ps
  | .array a, .array b => a.same b
  | .tuple as, .tuple bs => Ty.allSame as bs
  | _, _ => false
termination_by structural ty => ty

/-- Every type of the first list is in the second. -/
def Ty.allIn : List Ty → List Ty → Bool
  | [], _ => true
  | m :: ms, ns => ns.any (fun n => m.same n) && Ty.allIn ms ns
termination_by structural ms => ms

def Ty.allSame : List Ty → List Ty → Bool
  | [], [] => true
  | a :: as, b :: bs => a.same b && Ty.allSame as bs
  | _, _ => false
termination_by structural as => as

def Signature.same : Signature → Signature → Bool
  | ⟨c, ps, v?, r, ts⟩, ⟨d, qs, w?, s, us⟩ =>
    c == d && Field.allSame ps qs && Ty.sameOption v? w? && r.same s && ts == us
termination_by structural sig => sig

def Signature.allSame : List Signature → List Signature → Bool
  | [], [] => true
  | a :: as, b :: bs => a.same b && Signature.allSame as bs
  | _, _ => false
termination_by structural as => as

def Field.same : Field → Field → Bool
  | ⟨n, t⟩, ⟨m, u⟩ => n == m && t.same u
termination_by structural f => f

def Field.allSame : List Field → List Field → Bool
  | [], [] => true
  | a :: as, b :: bs => a.same b && Field.allSame as bs
  | _, _ => false
termination_by structural as => as

def Ty.sameOption : Option Ty → Option Ty → Bool
  | none, none => true
  | some a, some b => a.same b
  | _, _ => false
termination_by structural a? => a?

end

instance : BEq Ty := ⟨Ty.same⟩

instance : BEq Field := ⟨Field.same⟩

instance : BEq Signature := ⟨Signature.same⟩

end LuaTypes
