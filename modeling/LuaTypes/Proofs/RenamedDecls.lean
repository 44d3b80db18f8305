import LuaTypes.Infer.Member
import LuaTypes.Proofs.RenamedBindings

/-!
Renaming the cells of comments, of declared members and their chains, and of questions.
-/

namespace LuaTypes

variable (ρ : CellMap)

/-- The comment with the cells of its types renamed. -/
def Doc.rename (doc : Doc) : Doc where
  class? := doc.class?
  type? := doc.type?.map (Ty.rename ρ)
  params := doc.params.map (Field.rename ρ)
  returns := doc.returns.map (Ty.rename ρ)
  vararg? := doc.vararg?.map (Ty.rename ρ)
  typeParams := doc.typeParams
  fields := doc.fields.map (Field.rename ρ)
  overloads := doc.overloads.map (Signature.rename ρ)
  aliases := doc.aliases.map (Field.rename ρ)

theorem Doc.paramTy?_rename (doc : Doc) (name : String) :
    (doc.rename ρ).paramTy? name = (doc.paramTy? name).map (Ty.rename ρ) := by
  have h : (fun f : Field => f.name == name) ∘ Field.rename ρ = fun f => f.name == name :=
    funext fun f => by rw [Function.comp, Field.rename_name]
  simp only [Doc.paramTy?, rename, List.find?_map, h, Option.map_map]
  exact congrArg (Option.map · _) (funext fun f => Field.rename_ty ρ f)

def MemberOrigin.rename : MemberOrigin → MemberOrigin
  | .method node => .method node
  | .funcDef node => .funcDef node
  | .docField ty => .docField (ty.rename ρ)
  | .docTableField ty => .docTableField (ty.rename ρ)
  | .tableField node => .tableField node
  | .assign target => .assign target
  | .globalAssign target => .globalAssign target

namespace MemberDecl

def rename (d : MemberDecl) : MemberDecl := { d with origin := d.origin.rename ρ }

@[simp] theorem rename_name (d : MemberDecl) : (d.rename ρ).name = d.name := rfl
@[simp] theorem rename_className (d : MemberDecl) : (d.rename ρ).className = d.className := rfl
@[simp] theorem rename_file (d : MemberDecl) : (d.rename ρ).file = d.file := rfl
@[simp] theorem rename_offset (d : MemberDecl) : (d.rename ρ).offset = d.offset := rfl
@[simp] theorem rename_authoritative (d : MemberDecl) :
    (d.rename ρ).authoritative = d.authoritative := rfl

@[simp] theorem rename_worth (d : MemberDecl) :
    ChainMember.worth (d.rename ρ) = ChainMember.worth d := by
  obtain ⟨_, _, origin, _⟩ := d
  cases origin <;> rfl

end MemberDecl

namespace MemberChain

mutual

def rename : MemberChain MemberDecl → MemberChain MemberDecl
  | ⟨cls, supers, own, claimed⟩ =>
    ⟨cls.rename ρ, renameAll supers, own.map (MemberDecl.rename ρ), claimed⟩
termination_by structural chain => chain

def renameAll : List (MemberChain MemberDecl) → List (MemberChain MemberDecl)
  | [] => []
  | chain :: rest => chain.rename :: renameAll rest
termination_by structural chains => chains

end

@[simp] theorem renameAll_eq_map (chains : List (MemberChain MemberDecl)) :
    renameAll ρ chains = chains.map (rename ρ) := by
  induction chains with
  | nil => rfl
  | cons chain rest ih => rw [renameAll, ih, List.map_cons]

@[simp] theorem rename_cls (chain : MemberChain MemberDecl) :
    (chain.rename ρ).cls = chain.cls.rename ρ := by
  cases chain; rfl

theorem rename_new (c : ClassTy) (supers : List (MemberChain MemberDecl)) :
    (new c supers).rename ρ = new (c.rename ρ) (supers.map (rename ρ)) := by
  rw [new, rename, renameAll_eq_map]; rfl

mutual

theorem find?_rename : ∀ (chain : MemberChain MemberDecl) (name : String),
    (chain.rename ρ).find? name = (chain.find? name).map (MemberDecl.rename ρ)
  | ⟨_, supers, own, _⟩, name => by
    rw [rename, find?, find?, OrderedMap.get?_map, findFirst?_renameAll supers]
    cases own.get? name <;> rfl
termination_by structural chain => chain

theorem findFirst?_renameAll : ∀ (chains : List (MemberChain MemberDecl)) (name : String),
    findFirst? (renameAll ρ chains) name = (findFirst? chains name).map (MemberDecl.rename ρ)
  | [], _ => rfl
  | chain :: rest, name => by
    rw [renameAll, findFirst?, findFirst?, find?_rename chain, findFirst?_renameAll rest]
    cases chain.find? name <;> rfl
termination_by structural chains => chains

end

theorem replaces_rename (member old : MemberDecl) (authoritative claimed : Bool) :
    replaces (member.rename ρ) (old.rename ρ) authoritative claimed
      = replaces member old authoritative claimed := by
  have hfile : ∀ d : MemberDecl, ChainMember.file (d.rename ρ) = ChainMember.file d :=
    MemberDecl.rename_file ρ
  have hoffset : ∀ d : MemberDecl, ChainMember.offset (d.rename ρ) = ChainMember.offset d :=
    MemberDecl.rename_offset ρ
  simp only [replaces, MemberDecl.rename_worth, hfile, hoffset]

theorem add_rename (chain : MemberChain MemberDecl) (member : MemberDecl) (authoritative : Bool) :
    (chain.rename ρ).add (member.rename ρ) authoritative
      = (chain.add member authoritative).rename ρ := by
  obtain ⟨cls, supers, own, claimed⟩ := chain
  have hname : ChainMember.name (member.rename ρ) = ChainMember.name member := rfl
  simp only [add, rename, findSuper?, findFirst?_renameAll, OrderedMap.get?_map, hname,
    MemberDecl.rename_worth, Option.all_map, replaces_rename]
  split
  · rw [rename]
  · rw [rename]
    split
    · rw [OrderedMap.map_insert]
    · rfl

theorem foldl_add_rename (decls : List MemberDecl) {p : MemberDecl → Bool}
    (h : ∀ d, p (d.rename ρ) = p d) (chain : MemberChain MemberDecl) :
    (decls.map (MemberDecl.rename ρ)).foldl (fun ch d => ch.add d (p d))
        (chain.rename ρ)
      = (decls.foldl (fun ch d => ch.add d (p d)) chain).rename ρ := by
  induction decls generalizing chain with
  | nil => rfl
  | cons d decls ih => rw [List.map_cons, List.foldl_cons, List.foldl_cons, h, add_rename, ih]

end MemberChain

@[simp] theorem Pick.of_rename (pick : Pick) (ty : Ty) :
    pick.of (ty.rename ρ) = (pick.of ty).rename ρ := by
  cases pick with
  | nth index => exact ty.valueAt_rename ρ index
  | all => rfl

/-- The question with the cells of its class renamed. -/
def Query.rename : Query → Query
  | .field cls name use => .field (cls.rename ρ) name use
  | q => q

@[simp] theorem Query.rename_key (q : Query) : (q.rename ρ).key = q.key := by
  cases q <;> simp [Query.rename, Query.key]

/-- The candidate with the cells of its class and of its type arguments renamed. -/
def Candidate.rename (c : Candidate) : Candidate :=
  ⟨c.cls.rename ρ, c.args?.map (List.map (Ty.rename ρ))⟩

/-! Renaming nothing. -/

theorem MemberOrigin.rename_id (origin : MemberOrigin) :
    origin.rename (fun cell => cell) = origin := by
  cases origin <;> simp [rename, Ty.rename_id]

theorem MemberDecl.rename_id (d : MemberDecl) : d.rename (fun cell => cell) = d := by
  rw [rename, MemberOrigin.rename_id]

theorem MemberDecl.map_rename_id (decls : List MemberDecl) :
    decls.map (MemberDecl.rename fun cell => cell) = decls := by
  rw [funext MemberDecl.rename_id, List.map_id']

theorem Doc.rename_id (doc : Doc) : doc.rename (fun cell => cell) = doc := by
  obtain ⟨_, type?, params, returns, vararg?, _, fields, overloads, aliases⟩ := doc
  simp [rename, funext Ty.rename_id, funext Field.rename_id, funext Signature.rename_id]

mutual

theorem MemberChain.rename_id :
    ∀ chain : MemberChain MemberDecl, chain.rename (fun cell => cell) = chain
  | ⟨cls, supers, own, claimed⟩ => by
    rw [MemberChain.rename, ClassTy.rename_id, MemberChain.renameAll_id supers,
      funext MemberDecl.rename_id]
    simp [OrderedMap.map]
termination_by structural chain => chain

theorem MemberChain.renameAll_id :
    ∀ chains : List (MemberChain MemberDecl),
      MemberChain.renameAll (fun cell => cell) chains = chains
  | [] => rfl
  | chain :: rest => by
    rw [MemberChain.renameAll, MemberChain.rename_id chain, MemberChain.renameAll_id rest]
termination_by structural chains => chains

end

theorem Query.rename_id (q : Query) : q.rename (fun cell => cell) = q := by
  cases q <;> simp [rename, ClassTy.rename_id]

end LuaTypes
