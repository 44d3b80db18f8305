import LuaTypes.Infer.Chain
import LuaTypes.Proofs.Independence

/-!
Members of filled chains. A declaration that is not let in is kept out by another one of its name,
so that no name is lost: a chain has a member for every name that is declared for one of its
classes, under the name of the class or under another name of it.
-/

namespace LuaTypes

namespace MemberChain

variable {μ : Type}

mutual

/-- The classes of the chain and of the chains below it, each before its superclasses. -/
def classes : MemberChain μ → List ClassTy
  | ⟨cls, supers, _, _⟩ => cls :: classesOfAll supers
termination_by structural chain => chain

def classesOfAll : List (MemberChain μ) → List ClassTy
  | [] => []
  | chain :: rest => chain.classes ++ classesOfAll rest
termination_by structural chains => chains

end

theorem classes_eq (chain : MemberChain μ) :
    chain.classes = chain.cls :: classesOfAll chain.supers := by
  cases chain
  rfl

theorem mem_classesOfAll {chains : List (MemberChain μ)} {c : ClassTy} :
    c ∈ classesOfAll chains ↔ ∃ chain ∈ chains, c ∈ chain.classes := by
  induction chains with
  | nil => simp [classesOfAll]
  | cons chain rest ih => simp [classesOfAll, ih]

theorem find?_eq (chain : MemberChain μ) (name : String) :
    chain.find? name = (chain.own.get? name <|> findFirst? chain.supers name) := by
  cases chain
  rfl

/-- The first chain that has a member decides. -/
theorem findFirst?_isSome {chains : List (MemberChain μ)} {name : String} :
    (findFirst? chains name).isSome ↔ ∃ chain ∈ chains, (chain.find? name).isSome := by
  induction chains with
  | nil => simp [findFirst?]
  | cons chain rest ih =>
    rw [findFirst?]
    cases hfind : chain.find? name with
    | some member => simp [hfind]
    | none => simp [hfind, ih]

theorem mem_of_findFirst? {chains : List (MemberChain μ)} {name : String} {member : μ}
    (h : findFirst? chains name = some member) :
    ∃ chain ∈ chains, chain.find? name = some member := by
  induction chains with
  | nil => cases h
  | cons chain rest ih =>
    rw [findFirst?] at h
    cases hfind : chain.find? name with
    | some found =>
      simp only [hfind] at h
      exact ⟨chain, List.mem_cons_self, hfind.trans h⟩
    | none =>
      simp only [hfind] at h
      obtain ⟨other, hother, hfind⟩ := ih h
      exact ⟨other, List.mem_cons_of_mem chain hother, hfind⟩

variable [ChainMember μ]

/-- A declaration is added in the place of an own member or as a new one, or it is left out; then
there is a member of its name already. -/
theorem add_cases (chain : MemberChain μ) (member : μ) (authoritative : Bool) :
    (chain.add member authoritative).cls = chain.cls ∧
    (chain.add member authoritative).supers = chain.supers ∧
    ((chain.add member authoritative).own = chain.own.insert (ChainMember.name member) member ∨
      (chain.add member authoritative).own = chain.own ∧
        (chain.find? (ChainMember.name member)).isSome) := by
  rw [find?_eq]
  simp only [add]
  split
  · rename_i hinherited
    refine ⟨rfl, rfl, .inr ⟨rfl, ?_⟩⟩
    cases hsuper : findFirst? chain.supers (ChainMember.name member) with
    | none => simp [findSuper?, hsuper] at hinherited
    | some inherited => cases chain.own.get? (ChainMember.name member) <;> rfl
  · refine ⟨rfl, rfl, ?_⟩
    dsimp only
    split
    · exact .inl rfl
    · rename_i hloses
      refine .inr ⟨rfl, ?_⟩
      cases hown : chain.own.get? (ChainMember.name member) with
      | none => simp [hown] at hloses
      | some old => rfl

/-- The second chain is the first one with some more declarations, of which the override rule may
have left out some, but no name. -/
structure Gathers (decls : List μ) (chain chain' : MemberChain μ) : Prop where
  cls : chain'.cls = chain.cls
  supers : chain'.supers = chain.supers
  finds : ∀ name member, chain'.find? name = some member →
    chain.find? name = some member ∨ member ∈ decls ∧ ChainMember.name member = name
  keeps : ∀ name, (chain.find? name).isSome → (chain'.find? name).isSome
  has : ∀ member ∈ decls, (chain'.find? (ChainMember.name member)).isSome

namespace Gathers

variable {decls more : List μ} {chain chain' chain'' : MemberChain μ}

theorem nil (chain : MemberChain μ) : Gathers [] chain chain where
  cls := rfl
  supers := rfl
  finds := fun _ _ => .inl
  keeps := fun _ => id
  has := nofun

theorem trans (h : Gathers decls chain chain') (h' : Gathers more chain' chain'') :
    Gathers (decls ++ more) chain chain'' where
  cls := h'.cls.trans h.cls
  supers := h'.supers.trans h.supers
  finds := by
    intro name member hfind
    rcases h'.finds name member hfind with hfind | ⟨hmem, hname⟩
    · rcases h.finds name member hfind with hfind | ⟨hmem, hname⟩
      · exact .inl hfind
      · exact .inr ⟨List.mem_append_left _ hmem, hname⟩
    · exact .inr ⟨List.mem_append_right _ hmem, hname⟩
  keeps := fun name hfind => h'.keeps name (h.keeps name hfind)
  has := by
    intro member hmem
    rcases List.mem_append.mp hmem with hmem | hmem
    · exact h'.keeps _ (h.has member hmem)
    · exact h'.has member hmem

theorem classes (h : Gathers decls chain chain') : chain'.classes = chain.classes := by
  rw [classes_eq, classes_eq, h.cls, h.supers]

theorem add (chain : MemberChain μ) (member : μ) (authoritative : Bool) :
    Gathers [member] chain (chain.add member authoritative) := by
  obtain ⟨hcls, hsupers, hown⟩ := add_cases chain member authoritative
  generalize chain.add member authoritative = chain' at hcls hsupers hown
  rcases hown with hown | ⟨hown, hfound⟩
  · have hget (name : String) : chain'.find? name
        = if name = ChainMember.name member then some member else chain.find? name := by
      rw [find?_eq, find?_eq, hown, hsupers, OrderedMap.get?_insert]
      split <;> rfl
    refine ⟨hcls, hsupers, fun name found hfind => ?_, fun name hfind => ?_,
      List.forall_mem_singleton.mpr ?_⟩
    · rw [hget] at hfind
      split at hfind
      · rename_i hname
        obtain rfl := Option.some_inj.mp hfind
        exact .inr ⟨List.mem_singleton_self _, hname.symm⟩
      · exact .inl hfind
    · rw [hget]
      split
      · rfl
      · exact hfind
    · rw [hget, if_pos rfl]
      rfl
  · have hget (name : String) : chain'.find? name = chain.find? name := by
      rw [find?_eq, find?_eq, hown, hsupers]
    refine ⟨hcls, hsupers, fun name found hfind => .inl (hget name ▸ hfind), fun name hfind => ?_,
      List.forall_mem_singleton.mpr ?_⟩
    · rwa [hget]
    · rwa [hget]

theorem foldl_add (chain : MemberChain μ) (decls : List μ) (authoritative : μ → Bool) :
    Gathers decls chain
      (decls.foldl (fun chain member => chain.add member (authoritative member)) chain) := by
  induction decls generalizing chain with
  | nil => exact nil chain
  | cons member rest ih => exact (add chain member _).trans (ih _)

end Gathers

end MemberChain

/-! Chains that are filled from an index. -/

section

variable {env : Env}

/-- A chain is filled with the members that the class carries and those that are indexed under its
names. -/
theorem fillChain_gathers (chain : MemberChain MemberDecl) (aliases : List String) :
    MemberChain.Gathers
      (originMembers env chain.cls ++ env.index.classMembers chain.cls.name
        ++ aliases.flatMap env.index.classMembers)
      chain (fillChain env chain aliases) := by
  have hcarried := MemberChain.Gathers.foldl_add chain (originMembers env chain.cls) fun _ => false
  have hindexed (chain : MemberChain MemberDecl) (cls : String) :=
    MemberChain.Gathers.foldl_add chain (env.index.classMembers cls) (·.authoritative)
  have hothers (chain : MemberChain MemberDecl) := MemberChain.Gathers.foldl_add chain
    (aliases.flatMap env.index.classMembers) fun _ => false
  simp only [fillChain]
  rw [hcarried.cls]
  exact (hcarried.trans (hindexed _ chain.cls.name)).trans (hothers _)

/-- Every chain is filled from its class, as it reads through the memo. -/
inductive MemberChain.Filled (env : Env) (memo : ClassMemo) : MemberChain MemberDecl → Prop
  | intro {c : ClassTy} {supers : List (MemberChain MemberDecl)} :
    (∀ chain ∈ supers, Filled env memo chain) →
    Filled env memo (fillChain env (.new c supers)
      (c.aliasNames env.resolver env.settings.globalsAreTypes memo).1)

/-- The names that members of these classes are declared under. -/
def Env.memberNames (env : Env) (memo : ClassMemo) (classes : List ClassTy) : List String :=
  classes.flatMap fun c =>
    c.name :: (c.aliasNames env.resolver env.settings.globalsAreTypes memo).1

theorem Index.mem_classMembers_iff {ix : Index} (h : ix.ready = true) {cls : String}
    {d : MemberDecl} : d ∈ ix.classMembers cls ↔ d ∈ ix.membersOf cls := by
  refine ⟨mem_membersOf_of_classMembers, fun hd => ?_⟩
  simp only [classMembers, h]
  grind

namespace MemberChain

variable {memo : ClassMemo}

/-- What a chain is filled with, if its class carries no members, is what is declared for it. -/
theorem gathers_declared (memo : ClassMemo) (hready : env.index.ready = true) {c : ClassTy}
    (hnamed : c.origin = .named) (supers : List (MemberChain MemberDecl)) :
    ∃ decls, Gathers decls (.new c supers) (fillChain env (.new c supers)
        (c.aliasNames env.resolver env.settings.globalsAreTypes memo).1) ∧
      ∀ d, d ∈ decls ↔ ∃ cls ∈ env.memberNames memo [c], d ∈ env.index.membersOf cls := by
  refine ⟨_, fillChain_gathers _ _, fun d => ?_⟩
  have hcarried : originMembers env (new c supers).cls = [] := by
    change originMembers env c = []
    rw [originMembers, hnamed]
  rw [hcarried]
  simp [new, Env.memberNames, Index.mem_classMembers_iff hready]

theorem mem_memberNames_classesOfAll {supers : List (MemberChain MemberDecl)} {cls : String} :
    cls ∈ env.memberNames memo (classesOfAll supers)
      ↔ ∃ chain ∈ supers, cls ∈ env.memberNames memo chain.classes := by
  simp only [Env.memberNames, List.mem_flatMap, mem_classesOfAll]
  grind

/-- A filled chain has a member of a name exactly if one is declared for one of its classes, and
then it has one of those that are. -/
theorem Filled.find? {chain : MemberChain MemberDecl} (h : chain.Filled env memo)
    (hready : env.index.ready = true) (hnamed : ∀ c ∈ chain.classes, c.origin = .named)
    (name : String) :
    ((∃ cls ∈ env.memberNames memo chain.classes, ∃ d ∈ env.index.membersOf cls, d.name = name) →
      (chain.find? name).isSome) ∧
    ∀ d, chain.find? name = some d → d.name = name ∧
      ∃ cls ∈ env.memberNames memo chain.classes, d ∈ env.index.membersOf cls := by
  induction h with
  | @intro c supers _ ih =>
    have hclasses : (fillChain env (.new c supers)
        (c.aliasNames env.resolver env.settings.globalsAreTypes memo).1).classes
          = c :: classesOfAll supers := by
      rw [(fillChain_gathers _ _).classes]
      rfl
    have hnames : env.memberNames memo (c :: classesOfAll supers)
        = env.memberNames memo [c] ++ env.memberNames memo (classesOfAll supers) := by
      simp [Env.memberNames]
    rw [hclasses] at hnamed ⊢
    rw [hnames]
    obtain ⟨hcls, hsupers⟩ := List.forall_mem_cons.mp hnamed
    obtain ⟨decls, hgathers, hdecls⟩ := gathers_declared memo hready hcls supers
    have hih (chain : MemberChain MemberDecl) (hchain : chain ∈ supers) :=
      ih chain hchain fun d hd => hsupers d (mem_classesOfAll.mpr ⟨chain, hchain, hd⟩)
    constructor
    · rintro ⟨cls, hcls, d, hd, rfl⟩
      rcases List.mem_append.mp hcls with hcls | hcls
      · exact hgathers.has d ((hdecls d).mpr ⟨cls, hcls, hd⟩)
      · obtain ⟨chain, hchain, hcls⟩ := mem_memberNames_classesOfAll.mp hcls
        have hbelow := (hih chain hchain).1 ⟨cls, hcls, d, hd, rfl⟩
        exact hgathers.keeps _ (findFirst?_isSome.mpr ⟨chain, hchain, hbelow⟩)
    · intro d hfind
      rcases hgathers.finds name d hfind with hfind | ⟨hmem, hname⟩
      · obtain ⟨chain, hchain, hfind⟩ := mem_of_findFirst? hfind
        obtain ⟨hname, cls, hcls, hd⟩ := (hih chain hchain).2 d hfind
        have hcls := mem_memberNames_classesOfAll.mpr ⟨chain, hchain, hcls⟩
        exact ⟨hname, cls, List.mem_append_right _ hcls, hd⟩
      · obtain ⟨cls, hcls, hd⟩ := (hdecls d).mp hmem
        exact ⟨hname, cls, List.mem_append_left _ hcls, hd⟩

end MemberChain

end

end LuaTypes
