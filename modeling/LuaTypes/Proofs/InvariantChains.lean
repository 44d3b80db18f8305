import LuaTypes.Proofs.InvariantRewrites

/-!
Requests against comments that keep an invariant. While the types in comments have the property, so
do those that declarations are given by their comments, and those that members carry in member
chains.
-/

namespace LuaTypes

/-! Comments. -/

/-- All types in a comment. -/
def Doc.types (doc : Doc) : List Ty :=
  doc.type?.toList ++ doc.params.map (·.ty) ++ doc.returns ++ doc.vararg?.toList
    ++ doc.fields.map (·.ty) ++ doc.overloads.flatMap (·.types) ++ doc.aliases.map (·.ty)

/-- All signatures in a comment have type parameters only if tuples may have the property. -/
structure Doc.Keeps (doc : Doc) (T : TyInvariant) : Prop where
  types : ∀ ty ∈ doc.types, T.Holds ty
  typeParams : doc.typeParams ≠ [] → T.tuples
  overloads : ∀ sig ∈ doc.overloads, sig.isGeneric = true → T.tuples

def Program.Keeps (p : Program) (T : TyInvariant) : Prop :=
  ∀ id doc, p.doc? id = some doc → doc.Keeps T

/-- The type that a comment gives to a member. -/
def MemberDecl.documented? (d : MemberDecl) : Option Ty :=
  match d.origin with
  | .docField ty | .docTableField ty => some ty
  | _ => none

def MemberDecl.Keeps (T : TyInvariant) (d : MemberDecl) : Prop := ∀ ty ∈ d.documented?, T.Holds ty

/-- The types that an index holds have the property: the targets of aliases, and the types that
comments give to members. -/
structure Index.Keeps (ix : Index) (T : TyInvariant) : Prop where
  aliases : ∀ name a, ix.findAlias? name = some a → T.Holds a.target
  members : ∀ cls, ∀ d ∈ ix.membersOf cls, d.Keeps T

theorem Index.Keeps.resolver {ix : Index} {T : TyInvariant} (h : ix.Keeps T) (cancelled : Bool) :
    (ix.resolver cancelled).Keeps T := by
  intro name target htarget
  obtain ⟨a, ha, rfl⟩ := Option.map_eq_some_iff.mp htarget
  exact h.aliases name a ha

/-! Member chains. -/

namespace MemberChain

variable {μ : Type} {P : μ → Prop}

/-- Every member that is found has the property. -/
def Finds (P : μ → Prop) (chain : MemberChain μ) : Prop :=
  ∀ name member, chain.find? name = some member → P member

theorem findFirst?_finds {chains : List (MemberChain μ)} (h : ∀ chain ∈ chains, chain.Finds P)
    {name : String} {member : μ} (hfound : findFirst? chains name = some member) : P member := by
  induction chains with
  | nil => cases hfound
  | cons chain rest ih =>
    obtain ⟨hchain, hrest⟩ := List.forall_mem_cons.mp h
    rw [findFirst?] at hfound
    cases hget : chain.find? name with
    | some found =>
      simp only [hget] at hfound
      obtain rfl : found = member := Option.some_inj.mp hfound
      exact hchain name found hget
    | none =>
      simp only [hget] at hfound
      exact ih hrest hfound

theorem Finds.new (cls : ClassTy) {supers : List (MemberChain μ)}
    (h : ∀ chain ∈ supers, chain.Finds P) : (new cls supers).Finds P := by
  intro name member hfound
  rw [MemberChain.new, find?] at hfound
  exact findFirst?_finds h hfound

theorem Finds.add [ChainMember μ] {chain : MemberChain μ} (h : chain.Finds P) {member : μ}
    (hmember : P member) (authoritative : Bool) : (chain.add member authoritative).Finds P := by
  obtain ⟨cls, supers, own, claimed⟩ := chain
  simp only [MemberChain.add]
  split
  · exact h
  · intro name found hfound
    split at hfound
    · rw [find?, OrderedMap.get?_insert] at hfound
      split at hfound
      · obtain rfl : member = found := Option.some_inj.mp hfound
        exact hmember
      · exact h name found (by rwa [find?])
    · exact h name found (by rw [find?] at hfound ⊢; exact hfound)

theorem Finds.foldl_add [ChainMember μ] {chain : MemberChain μ} (h : chain.Finds P)
    {members : List μ} (hmembers : ∀ member ∈ members, P member) (authoritative : μ → Bool) :
    (members.foldl (fun chain member => chain.add member (authoritative member)) chain).Finds P :=
  List.foldlRecOn members _ h fun _ h member hmem => h.add (hmembers member hmem) _

end MemberChain

/-! The discipline. -/

namespace TyInvariant

variable (T : TyInvariant)

/-- Members are looked up only on classes with the property. -/
def Asks : Query → Prop
  | .field cls _ _ => T.Holds (.cls cls)
  | _ => True

/-- The picked values of a node have the property; of all of them together that can be said only if
tuples may have it. -/
def Picked : Pick → Ty → Prop
  | .nth _, ty => T.Holds ty
  | .all, ty => T.tuples → T.Holds ty

theorem Holds.picked {T : TyInvariant} {ty : Ty} (h : T.Holds ty) (pick : Pick) :
    T.Picked pick ty := by
  cases pick with
  | nth index => exact h
  | all => exact fun _ => h

def Answers : Query → Ty → Prop
  | .value id pick, ty => T.Picked pick ty ∧ (T.alone id → T.Holds ty)
  | _, ty => T.Holds ty

theorem answers_of_holds {ty : Ty} (h : T.Holds ty) (q : Query) : T.Answers q ty := by
  cases q with
  | value id pick => exact ⟨h.picked pick, fun _ => h⟩
  | _ => exact h

/-- Requests whose answers have the property. -/
def discipline : Discipline where
  Asked := T.Asks
  Answered := T.Answers
  State s := ∀ (name : String) (chain : MemberChain MemberDecl), s.chains[name]? = some chain →
    chain.Finds (MemberDecl.Keeps T)
  answered_unknown := T.answers_of_holds T.unknown
  state_guard _ h := h

abbrev infer : Keeping Infer := T.discipline.infer

abbrev asking : Keeping Asking := T.discipline.asking

end TyInvariant

/-- The comments and the index keep the invariant, and so do the bodies of functions whose results
are not documented. -/
structure Env.Keeps (env : Env) (T : TyInvariant) : Prop where
  calls : ∀ id callee args, env.program.node? id = some (.call callee args) → ¬T.alone id
  program : env.program.Keeps T
  index : env.index.Keeps T
  bodies : ∀ func node body, env.program.node? func = some node → node.funcBody? = some body →
    (env.program.functionDoc? func).elim [] (·.returns) = [] →
    T.asking.Ensures T.Returns (bodyReturnTy env body.block)

theorem Reading.keeping.read {T : TyInvariant} {α : Type} {P : α → Prop} {act : Reading α}
    (h : Reading.keeping.Ensures P act) : T.infer.Ensures P (Infer.read act) :=
  fun s hs => ⟨(h s.memo trivial).1, hs⟩

namespace Env.Keeps

variable {T : TyInvariant} {env : Env} (h : env.Keeps T)

include h

theorem expand {ty : Ty} (hty : T.Holds ty) :
    T.infer.Ensures T.Holds (Infer.expand env ty) :=
  Reading.keeping.read ((h.index.resolver env.cancelled).expandAliases hty)

theorem classMembers {cls : String} : ∀ d ∈ env.index.classMembers cls, d.Keeps T := by
  intro d hd
  apply h.index.members cls
  rw [Index.classMembers] at hd
  split at hd
  · cases hd
  · simp only [List.mem_append, List.mem_filter] at hd
    grind

theorem exact {cls name : String} {deep : Bool} :
    ∀ d ∈ env.index.exact cls name deep, d.Keeps T := by
  have hown {cls : String} : ∀ d ∈ env.index.ownDecls cls name, d.Keeps T :=
    fun d hd => h.index.members cls d (List.mem_filter.mp hd).1
  intro d hd
  rw [Index.exact] at hd
  split at hd
  · cases hd
  · rcases List.mem_append.mp hd with hd | hd
    · exact hown d hd
    · split at hd
      · obtain ⟨cls, -, hd⟩ := List.mem_flatMap.mp hd
        exact hown d hd
      · cases hd

omit h in
theorem originMembers {c : ClassTy} (hc : T.Holds (.cls c)) :
    ∀ d ∈ originMembers env c, d.Keeps T := by
  have hfields := T.cls.mp hc
  obtain ⟨name, varName, flags, origin, details⟩ := c
  intro d hd
  cases origin with
  | named => cases hd
  | literal file node count =>
    obtain ⟨field, -, rfl⟩ := List.mem_map.mp hd
    nofun
  | docTable fields =>
    obtain ⟨field, hfield, rfl⟩ := List.mem_map.mp hd
    rintro _ ⟨⟩
    exact hfields _ (List.fst_mem_of_mem_zipIdx hfield)

theorem fillChain {chain : MemberChain MemberDecl} (hcls : T.Holds (.cls chain.cls))
    (hchain : chain.Finds (MemberDecl.Keeps T)) (aliases : List String) :
    (fillChain env chain aliases).Finds (MemberDecl.Keeps T) := by
  rw [LuaTypes.fillChain]
  apply MemberChain.Finds.foldl_add
  · apply MemberChain.Finds.foldl_add
    · exact hchain.foldl_add (originMembers hcls) fun _ => false
    · exact h.classMembers
  · intro d hd
    obtain ⟨cls, -, hd⟩ := List.mem_flatMap.mp hd
    exact h.classMembers d hd

end Env.Keeps

/-! Superclasses. -/

section

variable {T : TyInvariant}

theorem Resolver.superTy?_holds {r : Resolver} {name : String} {ty : Ty}
    (h : r.superTy? name = some ty) : T.Holds ty := by
  rcases superTy?_cases h with ⟨p, rfl⟩ | ⟨details, rfl, -⟩
  · exact T.prim p
  · exact .cls_of_docFields rfl

theorem Resolver.superOf?_holds {r : Resolver} {details : ClassDetails} {ty : Ty}
    (h : r.superOf? details = some ty) : T.Holds ty := by
  refine TyInvariant.Holds.collected (fun ty hty => ?_) ty h
  obtain ⟨name, -, hname⟩ := List.mem_filterMap.mp hty
  exact superTy?_holds hname

theorem ClassTy.super?_holds (r : Resolver) (c : ClassTy) :
    Reading.keeping.Ensures (fun super? => ∀ ty ∈ super?, T.Holds ty) (c.super? r) :=
  fun _ _ => ⟨fun _ hty => Resolver.superOf?_holds hty, trivial⟩

end

/-! Building chains. -/

/-- Computations that remember which class names the walk has met. -/
def chaining (T : TyInvariant) : Keeping Chaining := T.infer.state fun _ => True

theorem buildSupers_finds {T : TyInvariant} {build : ClassTy → Chaining (MemberChain MemberDecl)}
    (h : ∀ c, T.Holds (.cls c) →
      (chaining T).Ensures (MemberChain.Finds (MemberDecl.Keeps T)) (build c))
    {classes : List ClassTy} (hclasses : ∀ c ∈ classes, T.Holds (.cls c)) :
    (chaining T).Ensures (fun chains => ∀ chain ∈ chains, chain.Finds (MemberDecl.Keeps T))
      (buildSupers build classes) := by
  induction classes with
  | nil => exact (chaining T).pure nofun
  | cons c rest ih =>
    obtain ⟨hc, hrest⟩ := List.forall_mem_cons.mp hclasses
    apply (chaining T).bind (T.infer.get_ensures _)
    intro met _
    split
    · exact ih hrest
    · apply (chaining T).bind (h c hc)
      intro chain hchain
      apply (chaining T).bind (ih hrest)
      intro chains hchains
      exact (chaining T).pure (List.forall_mem_cons.mpr ⟨hchain, hchains⟩)

namespace Env.Keeps

variable {T : TyInvariant} {env : Env} (h : env.Keeps T)

include h

theorem chainOf {build : ClassTy → Chaining (MemberChain MemberDecl)}
    (hbuild : ∀ c, T.Holds (.cls c) →
      (chaining T).Ensures (MemberChain.Finds (MemberDecl.Keeps T)) (build c))
    {c : ClassTy} (hc : T.Holds (.cls c)) :
    (chaining T).Ensures (MemberChain.Finds (MemberDecl.Keeps T)) (chainOf env build c) := by
  have hsuper : T.infer.Ensures (fun super? => ∀ ty ∈ super?, T.Holds ty)
      (Infer.read (c.super? env.resolver)) := Reading.keeping.read (c.super?_holds env.resolver)
  apply (chaining T).bind (T.infer.lift_ensures _ hsuper)
  intro super? hsuper
  apply (chaining T).bind (P := fun chains => ∀ chain ∈ chains, chain.Finds (MemberDecl.Keeps T))
  · split
    · exact (chaining T).pure nofun
    · cases super? with
      | none => exact buildSupers_finds hbuild nofun
      | some ty => exact buildSupers_finds hbuild (hsuper ty rfl).classes
  · intro supers hsupers
    apply (chaining T).bind (P := fun _ => True) (fun _ _ _ hs => ⟨⟨trivial, trivial⟩, hs⟩)
    intro aliases _
    exact (chaining T).pure (h.fillChain hc (.new c hsupers) aliases)

theorem buildChain (room : Nat) {c : ClassTy} (hc : T.Holds (.cls c)) :
    (chaining T).Ensures (MemberChain.Finds (MemberDecl.Keeps T)) (buildChain env room c) := by
  induction room generalizing c with
  | zero => exact (chaining T).pure (.new c nofun)
  | succ room ih =>
    apply (chaining T).bind (P := fun _ => True) (fun _ _ _ hs => ⟨⟨trivial, trivial⟩, hs⟩)
    intro _ _
    apply (chaining T).bind (P := fun _ => True) (fun _ _ _ hs => ⟨⟨trivial, trivial⟩, hs⟩)
    intro ok _
    split
    · exact (chaining T).pure (.new c nofun)
    · apply (chaining T).bind (h.chainOf (fun c hc => ih hc) hc)
      intro chain hchain
      apply (chaining T).bind (P := fun _ => True) (fun _ _ _ hs => ⟨⟨trivial, trivial⟩, hs⟩)
      intro _ _
      exact (chaining T).pure hchain

theorem memberChain {c : ClassTy} (hc : T.Holds (.cls c)) :
    T.infer.Ensures (MemberChain.Finds (MemberDecl.Keeps T)) (memberChain env c) := by
  apply T.infer.bind (Keeping.values.get_ensures _)
  intro s hs
  cases hchain : s.chains[c.name]? with
  | some chain => exact T.infer.pure (hs c.name chain hchain)
  | none =>
    have hbuild : T.infer.Ensures (fun r => r.1.Finds (MemberDecl.Keeps T) ∧ True)
        ((LuaTypes.buildChain env (maxChainDepth + 1) c).run []) :=
      h.buildChain (maxChainDepth + 1) hc [] trivial
    apply T.infer.bind hbuild
    intro r hr
    apply T.infer.bind (P := fun _ => True)
    · intro s hs
      refine ⟨trivial, fun name chain hchain => ?_⟩
      change (s.chains.insert c.name r.1)[name]? = some chain at hchain
      rw [Std.HashMap.getElem?_insert] at hchain
      split at hchain
      · obtain rfl := Option.some_inj.mp hchain
        exact hr.1
      · exact hs name chain hchain
    · intro _ _
      exact T.infer.pure hr.1

theorem findMember {c : ClassTy} (hc : T.Holds (.cls c)) (name : String) :
    T.infer.Ensures (fun d? => ∀ d ∈ d?, d.Keeps T) (findMember env c name) := by
  apply T.infer.bind (h.memberChain hc)
  intro chain hchain
  exact T.infer.pure (hchain name)

end Env.Keeps

end LuaTypes
