import LuaTypes.Index.Visit
import LuaTypes.Proofs.Filed
import LuaTypes.Proofs.SuperclassWalks
import LuaTypes.Proofs.Visits

/-!
Deep visits. A visit goes through the class, through its alias and through the classes of the
superclass walk, and passes over a name that it has processed. So it comes to each declaration of
the member on one of these classes once, in the order of the classes and for each of them in the
order of indexing.
-/

namespace LuaTypes

/-- Items that are grouped by different keys come once each. -/
theorem perm_flatMap_filter {α β : Type} [DecidableEq β] (key : α → β) (items : List α)
    {keys : List β} (h : keys.Nodup) :
    (keys.flatMap fun k => items.filter (key · = k)).Perm (items.filter (key · ∈ keys)) := by
  induction keys with
  | nil => simp
  | cons k keys ih =>
    obtain ⟨hnew, hnodup⟩ := List.nodup_cons.mp h
    have hfirst : (items.filter (key · ∈ k :: keys)).filter (key · = k)
        = items.filter (key · = k) := by
      rw [List.filter_filter]
      exact List.filter_congr fun a _ => by by_cases hkey : key a = k <;> simp [hkey]
    have hrest : (items.filter (key · ∈ k :: keys)).filter (fun a => !decide (key a = k))
        = items.filter (key · ∈ keys) := by
      rw [List.filter_filter]
      refine List.filter_congr fun a _ => ?_
      by_cases hkey : key a = k
      · simp [hkey, hnew]
      · simp [hkey]
    have hsplit := List.filter_append_perm (key · = k) (items.filter (key · ∈ k :: keys))
    rw [hfirst, hrest] at hsplit
    exact ((ih hnodup).append_left _).trans hsplit

/-! Names that are processed once. -/

/-- The names that are not met before, each where it comes first. -/
def firstOfEach (met : List String) : List String → List String
  | [] => []
  | name :: rest =>
    if name ∈ met then firstOfEach met rest else name :: firstOfEach (name :: met) rest

theorem firstOfEach_of_nodup {met names : List String} (h : names.Nodup) :
    firstOfEach met names = names.filter (· ∉ met) := by
  induction names generalizing met with
  | nil => rfl
  | cons name rest ih =>
    obtain ⟨hfirst, hrest⟩ := List.nodup_cons.mp h
    rw [firstOfEach, List.filter_cons]
    by_cases hmet : name ∈ met
    · simpa [hmet] using ih hrest
    · have hcongr : rest.filter (· ∉ name :: met) = rest.filter (· ∉ met) := by
        refine List.filter_congr fun other hother => ?_
        have hne : other ≠ name := fun heq => hfirst (heq ▸ hother)
        simp [hne]
      rw [if_neg hmet, ih hrest, hcongr, if_pos (decide_eq_true hmet)]

theorem nodup_firstOfEach (met names : List String) :
    (firstOfEach met names).Nodup ∧ ∀ name ∈ firstOfEach met names, name ∉ met := by
  induction names generalizing met with
  | nil => exact ⟨List.nodup_nil, nofun⟩
  | cons name rest ih =>
    rw [firstOfEach]
    split
    · exact ih met
    · rename_i hmet
      obtain ⟨hnodup, hnew⟩ := ih (name :: met)
      refine ⟨List.nodup_cons.mpr ⟨fun h => hnew name h List.mem_cons_self, hnodup⟩, ?_⟩
      refine List.forall_mem_cons.mpr ⟨hmet, fun other hother hmem => ?_⟩
      exact hnew other hother (List.mem_cons_of_mem name hmem)

namespace Index

/-! The classes that a visit comes to. -/

section

variable (ix : Index) (cls : String)

/-- The alias of a registered class, if it is another name. -/
def otherName? : Option String :=
  ((ix.findClass? cls).bind (·.details.alias?)).filter (· ≠ cls)

/-- The names of the classes that the superclass walk from a registered class comes to. -/
def walkNames : List String :=
  (ix.findClass? cls).elim [] fun d =>
    ((ClassTy.declared cls d.details).ancestors (ix.resolver false) {}).1.map (·.name)

/-- The class, its alias, and the classes of the walk other than that. -/
def deepNames : List String :=
  cls :: ((ix.otherName? cls).toList ++
    (ix.walkNames cls).filter (· ∉ ix.otherName? cls))

variable {ix cls}

theorem walkNames_of_findClass? {d : ClassDecl} (h : ix.findClass? cls = some d) :
    ix.walkNames cls
      = ((ClassTy.declared cls d.details).ancestors (ix.resolver false) {}).1.map (·.name) := by
  rw [walkNames, h]
  rfl

theorem nodup_walkNames : (ix.walkNames cls).Nodup ∧ cls ∉ ix.walkNames cls := by
  cases h : ix.findClass? cls with
  | none =>
    rw [walkNames, h]
    exact ⟨List.nodup_nil, List.not_mem_nil⟩
  | some d =>
    rw [walkNames_of_findClass? h]
    obtain ⟨hnodup, hnew⟩ := @nodup_ancestorsFrom (ix.resolver false) [cls]
      ((ix.resolver false).superClasses d.details)
    refine ⟨hnodup, fun hmem => ?_⟩
    obtain ⟨c, hc, rfl⟩ := List.mem_map.mp hmem
    exact hnew c hc (List.mem_singleton_self _)

/-- The class, its alias and the classes of the walk, each where it comes first. -/
theorem firstOfEach_eq_deepNames : firstOfEach []
    (cls :: (((ix.findClass? cls).bind (·.details.alias?)).toList ++ ix.walkNames cls))
      = ix.deepNames cls := by
  obtain ⟨hnodup, hself⟩ := @nodup_walkNames ix cls
  have hwalk (met : List String) : firstOfEach (met ++ [cls]) (ix.walkNames cls)
      = (ix.walkNames cls).filter (· ∉ met) := by
    rw [firstOfEach_of_nodup hnodup]
    refine List.filter_congr fun name hname => ?_
    have hne : name ≠ cls := fun heq => hself (heq ▸ hname)
    simp [hne]
  rw [firstOfEach, if_neg List.not_mem_nil, deepNames, otherName?]
  congr 1
  cases (ix.findClass? cls).bind (·.details.alias?) with
  | none => simpa using hwalk []
  | some other =>
    rw [Option.toList_some, List.singleton_append, firstOfEach]
    by_cases hsame : other = cls
    · rw [if_pos (List.mem_singleton.mpr hsame), Option.filter_some_neg (by simpa using hsame)]
      simpa using hwalk []
    · rw [if_neg (mt List.mem_singleton.mp hsame), Option.filter_some_pos (by simpa using hsame)]
      simpa [eq_comm] using hwalk [other]

/-! Visits. -/

section

variable {m : Type → Type} [Monad m] [LawfulMonad m] (visitor : MemberDecl → m Flow)

theorem run'_visitAncestors (r : Resolver) (c : ClassTy) (each : ClassTy → m Flow)
    (memo : ClassMemo) : (c.visitAncestors r (pure false) each).run' memo
      = offer each (c.ancestors r memo).1 := by
  rw [StateT.run'_eq]
  change Prod.fst <$> (do return (← offerUntil (pure false) each (c.ancestors r memo).1, _)) = _
  simp [offerUntil_pure_false]

/-- A deep visit comes to the class, to its alias and to the classes of the walk. -/
theorem visitDeep_eq_offer (member : String) : ix.visitDeep visitor cls member
    = offer (ix.visitNew visitor member)
      (cls :: (((ix.findClass? cls).bind (·.details.alias?)).toList ++ ix.walkNames cls)) := by
  rw [visitDeep, offer]
  refine bind_congr fun flow => ?_
  cases flow with
  | stop => rfl
  | next =>
    simp only
    cases hfind : ix.findClass? cls with
    | none => simp [walkNames, hfind, offer]
    | some d =>
      rw [walkNames_of_findClass? hfind, offer_append, offer_map]
      simp only [run'_visitAncestors, Option.bind_some]
      cases d.details.alias? with
      | none => simp [offer]
      | some other =>
        simp only [Option.toList_some, Option.elim_some, offer, bind_assoc]
        refine bind_congr fun flow => ?_
        cases flow <;> simp

/-- Of the names that come up, each is processed once. -/
theorem run'_offer_visitNew (member : String) (names met : List String) :
    (offer (ix.visitNew visitor member) names).run' met
      = offer visitor ((firstOfEach met names).flatMap (ix.ownDecls · member)) := by
  induction names generalizing met with
  | nil => simp [offer, firstOfEach]
  | cons name rest ih =>
    rw [offer, visitNew, firstOfEach, bind_assoc, StateT.run'_eq, StateT.run_bind, StateT.run_get,
      pure_bind]
    by_cases hmet : name ∈ met
    · rw [if_pos hmet, if_pos hmet, pure_bind]
      exact ih met
    · rw [if_neg hmet, if_neg hmet, bind_assoc, StateT.run_bind, StateT.run_modify, pure_bind,
        StateT.run_bind, StateT.run_monadLift, bind_assoc, map_bind, List.flatMap_cons,
        offer_append]
      refine bind_congr fun flow => ?_
      rw [pure_bind]
      cases flow with
      | stop => exact map_pure Prod.fst (Flow.stop, name :: met)
      | next => exact ih (name :: met)

/-- The visit offers the declarations under the classes that it comes to. -/
theorem visitExact_deep (hready : ix.ready = true) (member : String) :
    ix.visitExact visitor cls member true
      = offer visitor ((ix.deepNames cls).flatMap (ix.ownDecls · member)) := by
  rw [visitExact, hready, Bool.not_true, if_neg Bool.false_ne_true, if_pos rfl, visitDeep_eq_offer,
    run'_offer_visitNew, firstOfEach_eq_deepNames]

end

/-- A look-up finds the declarations under these classes. -/
theorem exact_deep (hready : ix.ready = true) (member : String) :
    ix.exact cls member true = (ix.deepNames cls).flatMap (ix.ownDecls · member) := by
  have hpath : ix.lookupPath cls = (ix.otherName? cls).toList ++
      (ix.walkNames cls).filter (· ∉ ix.otherName? cls) := by
    rw [lookupPath, otherName?]
    cases hfind : ix.findClass? cls with
    | none => simp [walkNames, hfind]
    | some d =>
      rw [walkNames_of_findClass? hfind, ClassTy.ancestors_fst, Option.bind_some]
      change _ = _ ++ ((ancestorsFrom (ix.resolver false) [cls]
        ((ix.resolver false).superClasses d.details)).map (·.name)).filter _
      simp only
      generalize (ancestorsFrom (ix.resolver false) [cls]
        ((ix.resolver false).superClasses d.details)).map (·.name) = walk
      cases d.details.alias? with
      | none => simp
      | some other =>
        by_cases hsame : other = cls
        · rw [Option.filter_some_neg (by simpa using hsame)]
          simp [hsame]
        · rw [Option.filter_some_pos (by simpa using hsame)]
          simp [hsame, bne, eq_comm, beq_eq_decide]
  rw [exact, hready, Bool.not_true, if_neg Bool.false_ne_true, if_pos rfl, hpath, deepNames,
    List.flatMap_cons]

end

/-! The order of indexing. -/

/-- The index is made step by step, and these are the members that were added, in their order. -/
inductive Filled : Index → List MemberDecl → Prop
  | empty : Filled {} []
  | addClass {ix : Index} {log : List MemberDecl} (d : ClassDecl) :
    Filled ix log → Filled (ix.addClass d) log
  | addAlias {ix : Index} {log : List MemberDecl} (d : AliasDecl) :
    Filled ix log → Filled (ix.addAlias d) log
  | addMember {ix : Index} {log : List MemberDecl} (d : MemberDecl) :
    Filled ix log → Filled (ix.addMember d) (log ++ [d])
  | setReady {ix : Index} {log : List MemberDecl} (ready : Bool) :
    Filled ix log → Filled { ix with ready } log

theorem Filled.membersOf {ix : Index} {log : List MemberDecl} (h : ix.Filled log) (cls : String) :
    ix.membersOf cls = log.filter (·.className = cls) := by
  induction h with
  | empty => simp [Index.membersOf]
  | addClass d _ ih | setReady ready _ ih => exact ih
  | addAlias d _ ih =>
    rw [Index.addAlias]
    split <;> exact ih
  | addMember d _ ih =>
    rw [membersOf_addMember, ih, List.filter_append, List.filter_singleton]
    congr 1
    by_cases h : d.className = cls <;> simp [h]

end Index

namespace Index

theorem Filled.ownDecls {ix : Index} {log : List MemberDecl} (h : ix.Filled log)
    (cls member : String) :
    ix.ownDecls cls member = (log.filter (·.name = member)).filter (·.className = cls) := by
  rw [Index.ownDecls, h.membersOf, List.filter_filter, List.filter_filter]
  refine List.filter_congr fun d _ => ?_
  rw [Bool.and_comm, beq_eq_decide]

/-- A deep visit comes to the declarations of the member under the class, then under its alias, and
then under the classes of the superclass walk, which are all that can be reached if they are not too
many. It comes to each of them once, and under each class in the order of indexing. It ends after
the last one, or after the one where the visitor stops. -/
theorem Filled.visitExact_once {ix : Index} {log : List MemberDecl} (h : ix.Filled log)
    (hready : ix.ready = true) (cls member : String) :
    let names := ix.deepNames cls
    let found := log.filter (·.name = member)
    let decls := names.flatMap fun name => found.filter (·.className = name)
    names.Nodup ∧ decls.Perm (found.filter (·.className ∈ names)) ∧
    ix.exact cls member true = decls ∧
    (∀ d, ix.findClass? cls = some d →
      let start := ClassTy.declared cls d.details
      start.WalksTo (ix.resolver false) {} (ix.walkNames cls) ∧
      ((start.reached (ix.resolver false) {}).encard < maxSuperclassWalk →
        ∀ name, name ∈ ix.walkNames cls ↔ name ∈ start.reached (ix.resolver false) {})) ∧
    ∀ {σ : Type} (visitor : MemberDecl → StateM σ Flow) (s s' : σ),
      (GoesOn visitor decls s s' →
        (ix.visitExact visitor cls member true).run s = (.next, s')) ∧
      ∀ seen rest, decls = seen ++ rest → StopsAfter visitor seen s s' →
        (ix.visitExact visitor cls member true).run s = (.stop, s') := by
  intro names found decls
  have hnodup : names.Nodup := by
    rw [show names = _ from firstOfEach_eq_deepNames.symm]
    exact (nodup_firstOfEach _ _).1
  have hdecls : names.flatMap (ix.ownDecls · member) = decls :=
    congrArg (names.flatMap ·) (funext fun name => h.ownDecls name member)
  refine ⟨hnodup, perm_flatMap_filter _ found hnodup, (exact_deep hready member).trans hdecls,
    fun d hd => ?_, fun visitor s s' => ?_⟩
  · have hwalk : ix.walkNames cls = depthFirst
        ((ClassTy.declared cls d.details).stepsIn (ix.resolver false) {}) (maxSuperclassWalk - 1)
        [cls] := by
      rw [walkNames_of_findClass? hd, ClassTy.ancestors_eq_depthFirst, List.map_map]
      exact List.map_id _
    rw [hwalk]
    exact ⟨ClassTy.walksTo_depthFirst _ _ _, fun hfew name =>
      ClassTy.mem_depthFirst_iff (ENat.lt_natCast_add_one_iff.mp hfew) name⟩
  · rw [visitExact_deep visitor hready, hdecls]
    refine ⟨fun hgoes => hgoes.offer, fun seen rest hall hstops => ?_⟩
    rw [hall]
    exact hstops.offer rest

theorem Filled.foldl_addMember {ix : Index} {log : List MemberDecl} (h : ix.Filled log)
    (decls : List MemberDecl) : (decls.foldl Index.addMember ix).Filled (log ++ decls) := by
  induction decls generalizing ix log with
  | nil => rwa [List.append_nil]
  | cons d decls ih =>
    have hrest := ih (h.addMember d)
    rwa [List.append_assoc] at hrest

/-! A class whose alias is also a superclass, and whose other superclass inherits from it. -/

def entangledLog : List MemberDecl :=
  [⟨"m", "A", .funcDef 0, 0, 0, false, false⟩, ⟨"m", "C", .funcDef 0, 0, 1, false, false⟩,
    ⟨"m", "B", .funcDef 0, 0, 2, false, false⟩, ⟨"n", "C", .funcDef 0, 0, 3, false, false⟩,
    ⟨"m", "A", .funcDef 0, 0, 4, false, false⟩]

def entangledClasses : Index :=
  ((({} : Index).addClass ⟨"A", 0, 0, false, { supers := ["C"] }⟩).addClass
    ⟨"B", 0, 0, false, {}⟩).addClass
    ⟨"C", 0, 0, false, { supers := ["A", "B"], alias? := some "B" }⟩

def entangled : Index := entangledLog.foldl addMember entangledClasses

theorem filled_entangled : entangled.Filled entangledLog :=
  (((Filled.empty.addClass _).addClass _).addClass _).foldl_addMember entangledLog

theorem ready_entangled : entangled.ready = true := by
  rw [entangled, foldl_addMember_eq]
  rfl

theorem entangled_findClass? (name : String) : entangled.findClass? name =
    if name = "A" then some ⟨"A", 0, 0, false, { supers := ["C"] }⟩
    else if name = "B" then some ⟨"B", 0, 0, false, {}⟩
    else if name = "C" then some ⟨"C", 0, 0, false, { supers := ["A", "B"], alias? := some "B" }⟩
    else none := by
  have hclasses : entangled.findClass? name = entangledClasses.findClass? name := by
    rw [entangled, foldl_addMember_eq]
    rfl
  rw [hclasses]
  simp only [findClass?, entangledClasses, addClass, if_true]
  grind

theorem entangled_resolver : entangled.resolver false = { Resolver.empty with
    details? := fun name =>
      if name = "A" then some { supers := ["C"] }
      else if name = "B" then some {}
      else if name = "C" then some { supers := ["A", "B"], alias? := some "B" }
      else none } := by
  have hnone : entangled.aliases = {} := by
    rw [entangled, foldl_addMember_eq]
    rfl
  have hweight : entangled.aliasWeight = 0 := by
    rw [entangled, foldl_addMember_eq]
    rfl
  simp only [resolver, Resolver.empty, findAlias?, hnone, hweight, ready_entangled, if_true,
    entangled_findClass?]
  congr 1
  · funext name
    split_ifs <;> rfl
  · funext name
    simp

theorem entangled_walkNames : entangled.walkNames "C" = ["A", "B"] := by
  have hfind := entangled_findClass? "C"
  simp only [String.reduceEq, if_false, if_true] at hfind
  rw [walkNames_of_findClass? hfind, ClassTy.ancestors_eq_depthFirst, List.map_map,
    entangled_resolver]
  decide +kernel

theorem entangled_deepNames : entangled.deepNames "C" = ["C", "B", "A"] := by
  rw [deepNames, otherName?, entangled_walkNames, entangled_findClass?]
  decide

/-- A visitor that keeps the offsets and stops at the alias. -/
theorem Filled.visitExact_once_entangled :
    let start := ClassTy.declared "C" { supers := ["A", "B"], alias? := some "B" }
    let visitor (d : MemberDecl) : StateM (List Nat) Flow := fun offsets =>
      (if d.className = "B" then .stop else .next, d.offset :: offsets)
    entangled.ready = true ∧
    (start.reached (entangled.resolver false) {}).encard < maxSuperclassWalk ∧
    "B" ∈ start.reached (entangled.resolver false) {} ∧
    (entangled.exact "C" "m" true).map (·.offset) = [1, 2, 0, 4] ∧
    (entangled.visitExact visitor "C" "m" true).run [] = (.stop, [2, 1]) := by
  intro start visitor
  have hall := filled_entangled.visitExact_once ready_entangled "C" "m"
  rw [entangled_deepNames, entangled_walkNames] at hall
  obtain ⟨-, -, hexact, hwalk, hvisit⟩ := hall
  obtain ⟨hwalks, hreached⟩ := hwalk _ (entangled_findClass? "C")
  have hfew : (start.reached (entangled.resolver false) {}).encard < maxSuperclassWalk := by
    have hmany : ((2 : Nat) : ℕ∞) = min (start.reached (entangled.resolver false) {}).encard
        (maxSuperclassWalk - 1 : Nat) := hwalks.many
    rcases min_choice (start.reached (entangled.resolver false) {}).encard
        (maxSuperclassWalk - 1 : Nat) with hmin | hmin
    · rw [hmin] at hmany
      exact hmany ▸ Nat.cast_lt.mpr (show 2 < maxSuperclassWalk by decide)
    · exact absurd (Nat.cast_inj.mp (hmany.trans hmin)) (by decide)
  have hgoes : GoesOn visitor [entangledLog[1]] [] [1] := .cons rfl (.nil _)
  have hstops : StopsAfter visitor [entangledLog[1], entangledLog[2]] [] [2, 1] := .last hgoes rfl
  refine ⟨ready_entangled, hfew, (hreached hfew "B").mp (by decide), by rw [hexact]; decide, ?_⟩
  exact (hvisit visitor [] [2, 1]).2 _ [entangledLog[0], entangledLog[4]] rfl hstops

end Index

end LuaTypes
