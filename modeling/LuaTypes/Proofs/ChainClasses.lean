import LuaTypes.Proofs.Ancestry
import LuaTypes.Proofs.ChainMembers

/-!
Classes of member chains. A chain is built by a walk of its own, which nests where the walk over
superclasses keeps a list; within the limits of both they meet the same classes in the same order.
-/

namespace LuaTypes

variable {env : Env} {memo : ClassMemo} {names : Finset String} {level : Nat}

namespace Chaining

/-- A request on the way of building chains: it has met classes that are among these names, and
classes read as at the beginning. -/
structure Underway (env : Env) (memo : ClassMemo) (names : Finset String) (level : Nat)
    (met : List String) (s : Request) : Prop where
  reads : memo.ReadsAs env.resolver s.memo
  level : s.chainDepth.At maxChainDepth level
  nodup : met.Nodup
  subset : ∀ name ∈ met, name ∈ names

/-- Chains that were built where `walk` tells how the walk over superclasses goes on, whatever is
pending. The classes of the chains are what that walk meets first. -/
structure Built (env : Env) (memo : ClassMemo) (names : Finset String) (level : Nat)
    (walk : List ClassTy → List ClassTy) (met : List String)
    (chains : List (MemberChain MemberDecl)) (met' : List String) (s : Request) : Prop where
  classes (pending : List ClassTy) :
    walk pending = MemberChain.classesOfAll chains ++ ancestorsFrom env.resolver met' pending
  filled : ∀ chain ∈ chains, chain.Filled env memo
  grows : met ⊆ met'
  underway : Underway env memo names level met' s

/-- The walk over superclasses when it comes to a class that it has not met. -/
def walkFrom (env : Env) (memo : ClassMemo) (met : List String) (c : ClassTy)
    (pending : List ClassTy) : List ClassTy :=
  c :: ancestorsFrom env.resolver (c.name :: met)
    (env.resolver.superClasses (c.detailsIn env.resolver memo) ++ pending)

namespace Underway

variable {met : List String} {s : Request}

/-- A name that was not met leaves room for the walk. -/
theorem length_lt (h : Underway env memo names level met s) (hcard : names.card ≤ maxSuperclassWalk)
    {name : String} (hname : name ∈ names) (hnew : name ∉ met) :
    met.length < maxSuperclassWalk := by
  have hsubset : (name :: met).toFinset ⊆ names := fun other hother => by
    rcases List.mem_cons.mp (List.mem_toFinset.mp hother) with rfl | hother
    · exact hname
    · exact h.subset other hother
  have hle := Finset.card_le_card hsubset
  rw [List.toFinset_card_of_nodup (List.nodup_cons.mpr ⟨hnew, h.nodup⟩), List.length_cons] at hle
  omega

theorem readDetails (h : Underway env memo names level met s) (c : ClassTy) :
    ∃ memo', c.readDetails env.resolver s.memo = (c.detailsIn env.resolver memo, memo') ∧
      Underway env memo names level met { s with memo := memo' } := by
  obtain ⟨hdetails, hreads⟩ := h.reads.readDetails c
  exact ⟨_, Prod.ext hdetails rfl, { h with reads := hreads }⟩

/-- Below the nesting limit the request may go one class deeper. -/
theorem enter (h : Underway env memo names level met s) (hlevel : level < maxChainDepth)
    {name : String} (hname : name ∈ names) (hnew : name ∉ met) :
    (enterChain s).1 = true ∧
      Underway env memo names (level + 1) (name :: met) (enterChain s).2 := by
  rcases h.level.enter with ⟨-, hok, hentered⟩ | ⟨heq, -, -⟩
  · exact ⟨hok, h.reads, hentered, List.nodup_cons.mpr ⟨hnew, h.nodup⟩,
      List.forall_mem_cons.mpr ⟨hname, h.subset⟩⟩
  · omega

theorem leave (h : Underway env memo names (level + 1) met s) :
    Underway env memo names level met (leaveChain s).2 :=
  { h with level := h.level.leave }

end Underway

theorem buildSupers_cons (build : ClassTy → Chaining (MemberChain MemberDecl)) (c : ClassTy)
    (rest : List ClassTy) (met : List String) (s : Request) :
    buildSupers build (c :: rest) met s =
      if c.name ∈ met then buildSupers build rest met s
      else
        let ((chain, met), s) := build c met s
        let ((chains, met), s) := buildSupers build rest met s
        ((chain :: chains, met), s) := by
  simp only [buildSupers]
  change (if c.name ∈ met then buildSupers build rest else
    (do return (← build c) :: (← buildSupers build rest))) met s = _
  split <;> rfl

variable {build : ClassTy → Chaining (MemberChain MemberDecl)}

/-- The chains of those classes in a list that were not met are built as the walk goes on through
the list. -/
theorem buildSupers_built (hcard : names.card ≤ maxSuperclassWalk) (classes : List ClassTy)
    (hclasses : ∀ c ∈ classes, c.name ∈ names ∧ ∃ details, c = .declared c.name details)
    {start : List String} (hbuild : ∀ c ∈ classes, ∀ met s, Underway env memo names level met s →
      start ⊆ met → c.name ∉ met → Built env memo names level (walkFrom env memo met c) met
        [(build c met s).1.1] (build c met s).1.2 (build c met s).2)
    {met : List String} {s : Request} (h : Underway env memo names level met s)
    (hstart : start ⊆ met) :
    Built env memo names level (fun pending => ancestorsFrom env.resolver met (classes ++ pending))
      met (buildSupers build classes met s).1.1 (buildSupers build classes met s).1.2
      (buildSupers build classes met s).2 := by
  induction classes generalizing met s with
  | nil => exact ⟨fun _ => rfl, nofun, fun _ => id, h⟩
  | cons c rest ih =>
    obtain ⟨⟨hname, details, hc⟩, hrest⟩ := List.forall_mem_cons.mp hclasses
    obtain ⟨hfirst, hothers⟩ := List.forall_mem_cons.mp hbuild
    rw [buildSupers_cons]
    split
    · rename_i hmet
      have hbuilt := ih hrest hothers h hstart
      exact { hbuilt with
        classes := fun pending => by
          rw [List.cons_append, ancestorsFrom_of_met hmet]
          exact hbuilt.classes pending }
    · rename_i hnew
      have hchain := hfirst met s h hstart hnew
      have hwalk (pending : List ClassTy) : ancestorsFrom env.resolver met (c :: rest ++ pending)
          = walkFrom env memo met c (rest ++ pending) := by
        have hroom := h.length_lt hcard hname hnew
        rw [List.cons_append, ancestorsFrom_of_new hnew hroom, walkFrom, hc]
        rfl
      generalize build c met s = made at hchain
      obtain ⟨⟨chain, met₁⟩, s₁⟩ := made
      dsimp only at hchain ⊢
      have hchains := ih hrest hothers hchain.underway (List.Subset.trans hstart hchain.grows)
      generalize buildSupers build rest met₁ s₁ = made at hchains
      obtain ⟨⟨chains, met₂⟩, s₂⟩ := made
      refine ⟨fun pending => ?_, ?_, List.Subset.trans hchain.grows hchains.grows, hchains.underway⟩
      · rw [hwalk, hchain.classes, hchains.classes]
        simp [MemberChain.classesOfAll]
      · exact List.forall_mem_cons.mpr
          ⟨hchain.filled chain (List.mem_singleton_self chain), hchains.filled⟩

/-- A request that is not cancelled reads the class once for its superclasses and once for its other
names. -/
theorem chainOf_uncancelled (hcancelled : env.cancelled = false) (c : ClassTy) (met : List String)
    (s : Request) :
    chainOf env build c met s =
      let (details, memo) := c.readDetails env.resolver s.memo
      let ((supers, met), s) :=
        buildSupers build (env.resolver.superClasses details) met { s with memo }
      let (others, memo) := c.readDetails env.resolver s.memo
      ((fillChain env (.new c supers) (c.otherNames env.settings.globalsAreTypes others), met),
        { s with memo }) := by
  rw [chainOf_apply, ClassTy.aliasNames_eq]
  simp only [hcancelled, Bool.false_eq_true, if_false]
  rfl

/-- The chain of a class is filled after those of its superclasses. -/
theorem chainOf_built (hcancelled : env.cancelled = false) {c : ClassTy} {met : List String}
    {s : Request} {walk : List ClassTy → List ClassTy} (h : Underway env memo names level met s)
    (hsupers : ∀ s, Underway env memo names level met s →
      let made := buildSupers build
        (env.resolver.superClasses (c.detailsIn env.resolver memo)) met s
      Built env memo names level walk met made.1.1 made.1.2 made.2) :
    Built env memo names level (fun pending => c :: walk pending) met
      [(chainOf env build c met s).1.1] (chainOf env build c met s).1.2
      (chainOf env build c met s).2 := by
  obtain ⟨memo₁, hdetails, hread⟩ := h.readDetails c
  have hbuilt := hsupers _ hread
  rw [chainOf_uncancelled hcancelled, hdetails]
  dsimp only at hbuilt ⊢
  generalize buildSupers build _ met { s with memo := memo₁ } = made at hbuilt
  obtain ⟨⟨supers, met₁⟩, s₁⟩ := made
  obtain ⟨memo₂, hothers, hread⟩ := hbuilt.underway.readDetails c
  dsimp only at hothers hread ⊢
  rw [hothers]
  have hfilled : (fillChain env (.new c supers) (c.otherNames env.settings.globalsAreTypes
      (c.detailsIn env.resolver memo))).Filled env memo := by
    have hchain := MemberChain.Filled.intro (c := c) hbuilt.filled
    rw [ClassTy.aliasNames_eq] at hchain
    change (fillChain env _ (c.otherNames _ (c.readDetails env.resolver memo).1)).Filled env memo
      at hchain
    rwa [ClassTy.readDetails_fst] at hchain
  refine ⟨fun pending => ?_, List.forall_mem_singleton.mpr hfilled, hbuilt.grows, hread⟩
  have hclasses (others : List String) : (fillChain env (.new c supers) others).classes
      = (MemberChain.new c supers).classes := (fillChain_gathers _ _).classes
  rw [MemberChain.classesOfAll, MemberChain.classesOfAll, hclasses, hbuilt.classes,
    MemberChain.classes_eq, List.append_nil]
  rfl

/-- The chain of a class on a superclass path from `root` is built as the walk goes on with the
class, if no such path is longer than chains may nest. The request is as deep as the path is long. -/
theorem buildChain_built (hcancelled : env.cancelled = false)
    (hcard : names.card ≤ maxSuperclassWalk) {root : ClassTy}
    (hpaths : ∀ path, root.Path env.resolver memo path → path.length ≤ maxChainDepth)
    (hnames : ∀ d, Relation.ReflTransGen (ClassTy.HasSuper env.resolver memo) root d →
      d.name ∈ names)
    (room : Nat) {c : ClassTy} {path : List ClassTy} {met : List String} {s : Request}
    (hroom : maxChainDepth < room + path.length)
    (hpath : root.Path env.resolver memo (c :: path))
    (h : Underway env memo names path.length met s) (hbelow : path.map (·.name) ⊆ met)
    (hnew : c.name ∉ met) :
    Built env memo names path.length (walkFrom env memo met c) met
      [(buildChain env room c met s).1.1] (buildChain env room c met s).1.2
      (buildChain env room c met s).2 := by
  have hlength : path.length < maxChainDepth := hpaths _ hpath
  induction room generalizing c path met s with
  | zero => omega
  | succ room ih =>
    have hreaches := hpath.reaches c List.mem_cons_self
    obtain ⟨hentered, henter⟩ := h.enter hlength (hnames c hreaches) hnew
    have hmet : (c :: path).map (·.name) ⊆ c.name :: met :=
      List.cons_subset_cons c.name hbelow
    have hsupers (s : Request) (h : Underway env memo names (c :: path).length (c.name :: met) s) :
        let made := buildSupers (buildChain env room)
          (env.resolver.superClasses (c.detailsIn env.resolver memo)) (c.name :: met) s
        Built env memo names (c :: path).length
          (fun pending => ancestorsFrom env.resolver (c.name :: met)
            (env.resolver.superClasses (c.detailsIn env.resolver memo) ++ pending))
          (c.name :: met) made.1.1 made.1.2 made.2 := by
      have hsuper (d : ClassTy)
          (hd : d ∈ env.resolver.superClasses (c.detailsIn env.resolver memo)) :
          c.HasSuper env.resolver memo d := by
        rwa [ClassTy.HasSuper, ClassTy.readDetails_fst]
      refine buildSupers_built hcard _ (fun d hd => ⟨?_, ?_⟩)
        (fun d hd met' s' h' hgrown hnew' => ?_) h (List.Subset.refl _)
      · exact hnames d (hreaches.tail (hsuper d hd))
      · obtain ⟨-, details, hd, -⟩ := Resolver.superClasses_cases hd
        exact ⟨details, hd⟩
      · have hbelow' := List.Subset.trans hmet hgrown
        have hpath' := hpath.climb (hsuper d hd) fun hmem => hnew' (hbelow' hmem)
        exact ih (by simp only [List.length_cons]; omega) hpath' h' hbelow' hnew' (hpaths _ hpath')
    have hbuilt := chainOf_built hcancelled henter hsupers
    rw [Simulation.buildChain_succ, hentered, if_pos rfl]
    exact {
      classes := hbuilt.classes
      filled := hbuilt.filled
      grows := List.Subset.trans (List.subset_cons_self _ _) hbuilt.grows
      underway := hbuilt.underway.leave }

end Chaining

namespace ClassTy.WithinLimits

variable {c : ClassTy}

/-- The chain that a new request makes. -/
theorem newChain_built (hlimits : c.WithinLimits env.resolver memo)
    (hcancelled : env.cancelled = false) :
    (newChain env memo c).classes = c :: (c.ancestors env.resolver memo).1 ∧
      (newChain env memo c).Filled env memo := by
  obtain ⟨others, hothers, hreached⟩ := hlimits.reached
  have hcard : (insert c.name others).card ≤ maxSuperclassWalk :=
    (Finset.card_insert_le _ _).trans hothers
  have hnames (d : ClassTy) (hd : Relation.ReflTransGen (HasSuper env.resolver memo) c d) :
      d.name ∈ insert c.name others := by
    rcases Relation.reflTransGen_iff_eq_or_transGen.mp hd with rfl | hd
    · exact Finset.mem_insert_self _ _
    · by_cases hname : d.name = c.name
      · exact hname ▸ Finset.mem_insert_self _ _
      · exact Finset.mem_insert_of_mem (hreached d hd hname)
  have hstart : Chaining.Underway env memo (insert c.name others) 0 [] { memo } :=
    ⟨fun _ => rfl, ⟨rfl, rfl, Nat.zero_le _⟩, List.nodup_nil, nofun⟩
  have hbuilt := Chaining.buildChain_built hcancelled hcard hlimits.paths hnames
    (maxChainDepth + 1) (by omega) .start hstart (List.nil_subset _) List.not_mem_nil
  have hmade : newChain env memo c
      = (buildChain env (maxChainDepth + 1) c [] { memo }).1.1 := by
    rw [newChain, memberChain_of_none Std.HashMap.getElem?_empty]
    rfl
  rw [hmade]
  refine ⟨?_, hbuilt.filled _ (List.mem_singleton_self _)⟩
  have hclasses := hbuilt.classes []
  simp only [MemberChain.classesOfAll, ancestorsFrom, List.append_nil] at hclasses
  rw [← hclasses, Chaining.walkFrom, List.append_nil, ← readDetails_fst]
  rfl

/-- The chain of a class has the class and its superclasses, each once and in the order in which a
visitor is offered them. It finds a member of a name exactly if one is declared for one of these
classes, under its name or another name of it, and then one that is. -/
theorem members_complete (hlimits : c.WithinLimits env.resolver memo)
    (hready : env.index.ready = true) (hcancelled : env.cancelled = false)
    (hnamed : c.origin = .named) :
    let classes := (memberChain env c { memo }).1.classes
    let visited := ((c.visitAncestors env.resolver (pure env.cancelled) noteAll memo).run []).2
    let found (name : String) := (findMember env c name { memo }).1
    classes = c :: visited ∧ (classes.map (·.name)).Nodup ∧
    ∀ name,
      ((found name).isSome ↔
        ∃ cls ∈ env.memberNames memo classes, ∃ d ∈ env.index.membersOf cls, d.name = name) ∧
      ∀ d, found name = some d →
        d.name = name ∧ ∃ cls ∈ env.memberNames memo classes, d ∈ env.index.membersOf cls := by
  intro classes visited found
  obtain ⟨hclasses, hfilled⟩ := hlimits.newChain_built hcancelled
  have hvisited : visited = (c.ancestors env.resolver memo).1 := by
    rw [← visitAncestors_noteAll]
    simp only [visited, hcancelled]
  obtain ⟨hnodup, hfresh⟩ : ((c.ancestors env.resolver memo).1.map (·.name)).Nodup ∧
      ∀ d ∈ (c.ancestors env.resolver memo).1, d.name ∉ [c.name] := nodup_ancestorsFrom
  have horigins : ∀ d ∈ (newChain env memo c).classes, d.origin = .named := by
    rw [hclasses]
    refine List.forall_mem_cons.mpr ⟨hnamed, fun d hd => ?_⟩
    have hsuper : ∃ details, d ∈ env.resolver.superClasses details :=
      (mem_ancestorsFrom hd).elim (fun h => ⟨_, h⟩) id
    obtain ⟨details, hd⟩ := hsuper
    obtain ⟨-, details, hd, -⟩ := Resolver.superClasses_cases hd
    rw [hd]
    rfl
  refine ⟨hvisited ▸ hclasses, ?_, fun name => ?_⟩
  · rw [show classes = _ from hclasses]
    refine List.nodup_cons.mpr ⟨fun hmem => ?_, hnodup⟩
    obtain ⟨d, hd, hname⟩ := List.mem_map.mp hmem
    exact hfresh d hd (hname ▸ List.mem_singleton_self _)
  · obtain ⟨hfinds, hdeclared⟩ := hfilled.find? hready horigins name
    refine ⟨⟨fun hfound => ?_, hfinds⟩, hdeclared⟩
    obtain ⟨d, hd⟩ := Option.isSome_iff_exists.mp hfound
    obtain ⟨hname, cls, hcls, hmem⟩ := hdeclared d hd
    exact ⟨cls, hcls, d, hmem, hname⟩

end ClassTy.WithinLimits

/-! A class that inherits from another one in two ways, and that from it. -/

def Env.diamond : Env where
  program := Draft.build {}
  index := {
    classes := .ofList [
      ("Foo", ⟨"Foo", 0, 0, false, { supers := ["Left", "Right"] }⟩),
      ("Left", ⟨"Left", 0, 0, false, { supers := ["Base"] }⟩),
      ("Right", ⟨"Right", 0, 0, false, { supers := ["Base"] }⟩),
      ("Base", ⟨"Base", 0, 0, false, { supers := ["Foo"], alias? := some "Bar" }⟩)]
    members := ({} : Std.HashMap String (Array MemberDecl)).insert "Bar"
      #[⟨"m", "Bar", .funcDef 0, 0, 0, false, false⟩] }
  settings := {}
  resolveModule? := fun _ => none
  cancelled := false

namespace Env.diamond

theorem details? (name : String) : diamond.resolver.details? name =
    match name with
    | "Foo" => some { supers := ["Left", "Right"] }
    | "Left" => some { supers := ["Base"] }
    | "Right" => some { supers := ["Base"] }
    | "Base" => some { supers := ["Foo"], alias? := some "Bar" }
    | _ => none := by
  simp only [diamond, resolver, Index.resolver, Index.findClass?, if_true,
    Std.HashMap.ofList_cons, Std.HashMap.insertMany_cons, Std.HashMap.insertMany_nil]
  split
  all_goals grind

theorem readDetails :
    ((ClassTy.deferred "Foo" 0).readDetails diamond.resolver { next := 1 }).1
      = { supers := ["Left", "Right"] } := by
  rw [ClassTy.readDetails_fst]
  change (({} : Std.HashMap (String × Nat) ClassDetails)[("Foo", 0)]?).getD
    ((diamond.resolver.details? "Foo").getD {}) = _
  rw [Std.HashMap.getElem?_empty, details?]
  rfl

theorem withinLimits :
    (ClassTy.deferred "Foo" 0).WithinLimits diamond.resolver { next := 1 } := by
  have hcard : ({"Foo", "Left", "Right", "Base"} : Finset String).card < maxChainDepth := by decide
  refine .of_supers hcard (fun name details hdetails => ?_) ?_
  · rw [details?] at hdetails
    split at hdetails
    all_goals cases hdetails
    all_goals decide
  · rw [readDetails]
    decide

theorem superClasses :
    diamond.resolver.superClasses { supers := ["Left", "Right"] }
      = [.declared "Left" { supers := ["Base"] }, .declared "Right" { supers := ["Base"] }] ∧
    diamond.resolver.superClasses { supers := ["Base"] }
      = [.declared "Base" { supers := ["Foo"], alias? := some "Bar" }] ∧
    diamond.resolver.superClasses { supers := ["Foo"], alias? := some "Bar" }
      = [.declared "Foo" { supers := ["Left", "Right"] }] := by
  simp only [Resolver.superClasses, Resolver.superOf?, List.filterMap_cons, List.filterMap_nil,
    Resolver.superTy?, details?]
  exact ⟨rfl, rfl, rfl⟩

/-- The walk passes over the class itself and over the one that it meets again. -/
theorem ancestors :
    ((ClassTy.deferred "Foo" 0).ancestors diamond.resolver { next := 1 }).1
      = [.declared "Left" { supers := ["Base"] },
        .declared "Base" { supers := ["Foo"], alias? := some "Bar" },
        .declared "Right" { supers := ["Base"] }] := by
  obtain ⟨hfoo, hside, hbase⟩ := superClasses
  rw [ClassTy.ancestors_fst, readDetails, hfoo]
  simp [ancestorsFrom, ClassTy.declared, ClassTy.deferred, ClassTy.declaredDetails, hside, hbase,
    maxSuperclassWalk]

end Env.diamond

/-- A chain may go in circles and meet a class twice. -/
theorem ClassTy.WithinLimits.members_complete_diamond :
    let foo := ClassTy.deferred "Foo" 0
    let memo : ClassMemo := { next := 1 }
    foo.WithinLimits Env.diamond.resolver memo ∧ Env.diamond.index.ready = true ∧
    Env.diamond.cancelled = false ∧ foo.origin = .named ∧
    (memberChain Env.diamond foo { memo }).1.classes.map (·.name)
      = ["Foo", "Left", "Base", "Right"] ∧
    (findMember Env.diamond foo "m" { memo }).1.isSome := by
  intro foo memo
  obtain ⟨hclasses, -, hmembers⟩ := members_complete Env.diamond.withinLimits rfl rfl rfl
  have hvisited : (memberChain Env.diamond foo { memo }).1.classes
      = foo :: (foo.ancestors Env.diamond.resolver memo).1 := by
    rw [← ClassTy.visitAncestors_noteAll]
    exact hclasses
  rw [Env.diamond.ancestors] at hvisited
  refine ⟨Env.diamond.withinLimits, rfl, rfl, rfl, ?_, ?_⟩
  · rw [hvisited]
    rfl
  · have hnames : "Bar" ∈ Env.diamond.memberNames memo
        (memberChain Env.diamond foo { memo }).1.classes := by
      rw [hvisited]
      exact List.mem_flatMap.mpr
        ⟨.declared "Base" { supers := ["Foo"], alias? := some "Bar" }, by simp, by decide⟩
    have hdecl : ⟨"m", "Bar", .funcDef 0, 0, 0, false, false⟩
        ∈ Env.diamond.index.membersOf "Bar" := by
      simp [Env.diamond, Index.membersOf]
    exact (hmembers "m").1.mpr ⟨"Bar", hnames, _, hdecl, rfl⟩

end LuaTypes
