import LuaTypes.Proofs.ChainMembers
import LuaTypes.Proofs.MapKeys
import LuaTypes.Proofs.Visits

/-!
Listings of members. A listing goes through a chain and the chains below it once and leaves out the
names that it has met; a look-up goes through them anew for each name and takes the first member
that it meets. The listing has a name exactly if the look-up finds one, and then it has what the
look-up finds.
-/

namespace LuaTypes

namespace MemberChain

variable {μ : Type}

/-! The traversal, with a visitor that may end it. -/

section

variable {m : Type → Type} [Monad m] (visitor : Entry μ → m Flow)

/-- Offers the entries whose names have not been met, and takes note of their names. -/
def offerUnmet : List (Entry μ) → StateT (List String) m Flow
  | [] => return .next
  | e :: rest => do
    if e.name ∈ (← get) then offerUnmet rest
    else
      modify (e.name :: ·)
      match ← visitor e with
      | .stop => return .stop
      | .next => offerUnmet rest

mutual

/-- Goes through the own members and then, if the visit is deep, through those of the superclasses,
one after the other. -/
def visit (deep : Bool) : MemberChain μ → StateT (List String) m Flow
  | ⟨cls, supers, own, _⟩ => do
    match ← offerUnmet visitor (own.entries.map fun (name, member) => ⟨cls, name, member⟩) with
    | .stop => return .stop
    | .next => if deep then visitEach supers else return .next
termination_by structural chain => chain

def visitEach : List (MemberChain μ) → StateT (List String) m Flow
  | [] => return .next
  | chain :: rest => do
    match ← chain.visit true with
    | .stop => return .stop
    | .next => visitEach rest
termination_by structural chains => chains

end

/-- Visits the members of the chain; what the visitor answers last is the answer. -/
def forEach (chain : MemberChain μ) (deep : Bool) : m Flow := (chain.visit visitor deep).run' []

variable [LawfulMonad m]

theorem offerUnmet_append (es more : List (Entry μ)) :
    offerUnmet visitor (es ++ more) = (do
      match ← offerUnmet visitor es with
      | .stop => return .stop
      | .next => offerUnmet visitor more) := by
  induction es with
  | nil => simp [offerUnmet]
  | cons e rest ih =>
    simp only [List.cons_append, offerUnmet, bind_assoc]
    refine bind_congr fun met => ?_
    split
    · exact ih
    · simp only [bind_assoc]
      refine bind_congr fun _ => bind_congr fun flow => ?_
      cases flow with
      | stop => simp
      | next => exact ih

mutual

theorem visit_deep (chain : MemberChain μ) :
    chain.visit visitor true = offerUnmet visitor chain.allEntries := by
  obtain ⟨cls, supers, own, claimed⟩ := chain
  rw [visit, allEntries, offerUnmet_append, ← visitEach_eq supers]
  rfl
termination_by structural chain

theorem visitEach_eq (chains : List (MemberChain μ)) :
    visitEach visitor chains = offerUnmet visitor (entriesOfAll chains) := by
  match chains with
  | [] => rfl
  | chain :: rest =>
    rw [visitEach, entriesOfAll, offerUnmet_append, ← visit_deep chain, ← visitEach_eq rest]
termination_by structural chains

end

theorem visit_own (chain : MemberChain μ) :
    chain.visit visitor false = offerUnmet visitor chain.ownEntries := by
  obtain ⟨cls, supers, own, claimed⟩ := chain
  rw [visit, ← bind_pure (offerUnmet visitor (ownEntries _))]
  refine bind_congr fun flow => ?_
  cases flow <;> rfl

theorem run'_offerUnmet (es : List (Entry μ)) (met : List String) :
    (offerUnmet visitor es).run' met = offer visitor (firstOfEachName met es) := by
  induction es generalizing met with
  | nil => exact map_pure Prod.fst (Flow.next, met)
  | cons e rest ih =>
    rw [offerUnmet, firstOfEachName, StateT.run'_eq, StateT.run_bind, StateT.run_get, pure_bind]
    by_cases hmet : e.name ∈ met
    · rw [if_pos hmet, if_pos hmet]
      exact ih met
    · rw [if_neg hmet, if_neg hmet, StateT.run_bind, StateT.run_modify, pure_bind, offer,
        StateT.run_bind, StateT.run_monadLift, bind_assoc, map_bind]
      refine bind_congr fun flow => ?_
      rw [pure_bind]
      cases flow with
      | stop => exact map_pure Prod.fst (Flow.stop, e.name :: met)
      | next => exact ih (e.name :: met)

/-- The traversal offers the members in the order of the listing. -/
theorem forEach_eq_offer (chain : MemberChain μ) (deep : Bool) :
    chain.forEach visitor deep = offer visitor (chain.entries deep) := by
  rw [forEach, entries, ← run'_offerUnmet]
  cases deep with
  | true => rw [visit_deep, if_pos rfl]
  | false => rw [visit_own, if_neg Bool.false_ne_true]

end

/-! Which entries a listing has. -/

theorem mem_firstOfEachName {es : List (Entry μ)} {met : List String} {e : Entry μ} :
    e ∈ firstOfEachName met es ↔ e.name ∉ met ∧ es.find? (·.name == e.name) = some e := by
  induction es generalizing met with
  | nil => simp [firstOfEachName]
  | cons first rest ih =>
    rw [firstOfEachName, List.find?_cons]
    by_cases hname : first.name = e.name
    · simp only [hname, beq_self_eq_true, Option.some_inj]
      split
      · rename_i hmet
        simp [ih, hmet]
      · rename_i hmet
        simp [ih, hmet, eq_comm]
    · rw [beq_false_of_ne hname]
      have hne : ¬e = first := fun heq => hname (heq ▸ rfl)
      split
      · exact ih
      · simp [ih, hne, Ne.symm hname]

theorem nodup_firstOfEachName (met : List String) (es : List (Entry μ)) :
    ((firstOfEachName met es).map (·.name)).Nodup := by
  induction es generalizing met with
  | nil => exact List.nodup_nil
  | cons e rest ih =>
    rw [firstOfEachName]
    split
    · exact ih met
    · refine List.nodup_cons.mpr ⟨fun hmem => ?_, ih _⟩
      obtain ⟨other, hother, hname⟩ := List.mem_map.mp hmem
      exact (mem_firstOfEachName.mp hother).1 (hname ▸ List.mem_cons_self)

/-- Entries of which no two have one name are all listed. -/
theorem firstOfEachName_eq_self {es : List (Entry μ)} {met : List String}
    (hnew : ∀ e ∈ es, e.name ∉ met) (hnodup : (es.map (·.name)).Nodup) :
    firstOfEachName met es = es := by
  induction es generalizing met with
  | nil => rfl
  | cons e rest ih =>
    obtain ⟨he, hrest⟩ := List.forall_mem_cons.mp hnew
    obtain ⟨hfirst, hnodup⟩ := List.nodup_cons.mp hnodup
    rw [firstOfEachName, if_neg he, ih _ hnodup]
    intro other hother hmet
    rcases List.mem_cons.mp hmet with hname | hmet
    · exact hfirst (List.mem_map.mpr ⟨other, hother, hname⟩)
    · exact hrest other hother hmet

/-! Where a look-up finds its member. -/

/-- The chain has the member for the name in the class: as an own member of the chain, or in the
first of the superclasses that have one of the name. -/
inductive Provides (name : String) : MemberChain μ → ClassTy → μ → Prop
  | own {chain : MemberChain μ} {member : μ} :
    chain.own.get? name = some member → Provides name chain chain.cls member
  | inherited {chain super : MemberChain μ} {earlier later : List (MemberChain μ)} {cls : ClassTy}
      {member : μ} :
    chain.own.get? name = none → chain.supers = earlier ++ super :: later →
      (∀ other ∈ earlier, other.find? name = none) → Provides name super cls member →
        Provides name chain cls member

theorem lookup_eq_find? (cls : ClassTy) (own : List (String × μ)) (name : String) :
    (own.map fun e => (⟨cls, e.1, e.2⟩ : Entry μ)).find? (·.name == name)
      = (own.lookup name).map fun member => ⟨cls, name, member⟩ := by
  induction own with
  | nil => rfl
  | cons e rest ih =>
    rw [List.map_cons, List.find?_cons, List.lookup_cons]
    by_cases hname : e.1 = name
    · simp [hname]
    · rw [beq_false_of_ne hname, beq_false_of_ne (Ne.symm hname)]
      exact ih

theorem allEntries_eq (chain : MemberChain μ) :
    chain.allEntries = chain.ownEntries ++ entriesOfAll chain.supers := by
  cases chain
  rfl

/-- The first entry of a name is an own member, or else the first one below. -/
theorem find?_allEntries (chain : MemberChain μ) (name : String) :
    chain.allEntries.find? (·.name == name)
      = match chain.own.get? name with
        | some member => some ⟨chain.cls, name, member⟩
        | none => (entriesOfAll chain.supers).find? (·.name == name) := by
  rw [allEntries_eq, List.find?_append, ownEntries, lookup_eq_find?, OrderedMap.get?]
  cases chain.own.entries.lookup name <;> rfl

mutual

theorem find?_eq_find?_allEntries (chain : MemberChain μ) (name : String) :
    chain.find? name = (chain.allEntries.find? (·.name == name)).map (·.member) := by
  obtain ⟨cls, supers, own, claimed⟩ := chain
  rw [find?_allEntries, find?]
  cases own.get? name with
  | some member => rfl
  | none => exact findFirst?_eq_find?_entriesOfAll supers name
termination_by structural chain

theorem findFirst?_eq_find?_entriesOfAll (chains : List (MemberChain μ)) (name : String) :
    findFirst? chains name = ((entriesOfAll chains).find? (·.name == name)).map (·.member) := by
  match chains with
  | [] => rfl
  | chain :: rest =>
    rw [findFirst?, entriesOfAll, List.find?_append, find?_eq_find?_allEntries chain name,
      findFirst?_eq_find?_entriesOfAll rest name]
    cases chain.allEntries.find? (·.name == name) <;> rfl
termination_by structural chains

end

mutual

theorem provides_of_find? {chain : MemberChain μ} {name : String} {e : Entry μ}
    (h : chain.allEntries.find? (·.name == name) = some e) :
    Provides name chain e.cls e.member := by
  obtain ⟨cls, supers, own, claimed⟩ := chain
  rw [find?_allEntries] at h
  cases hown : own.get? name with
  | some member =>
    simp only [hown, Option.some_inj] at h
    exact h ▸ .own hown
  | none =>
    simp only [hown] at h
    obtain ⟨earlier, super, later, hsupers, hearlier, hsuper⟩ := exists_provides_of_find? h
    exact .inherited hown hsupers hearlier hsuper
termination_by structural chain

theorem exists_provides_of_find? {chains : List (MemberChain μ)} {name : String} {e : Entry μ}
    (h : (entriesOfAll chains).find? (·.name == name) = some e) :
    ∃ earlier super later, chains = earlier ++ super :: later ∧
      (∀ other ∈ earlier, other.find? name = none) ∧ Provides name super e.cls e.member := by
  match chains with
  | [] => cases h
  | chain :: rest =>
    rw [entriesOfAll, List.find?_append] at h
    cases hfirst : chain.allEntries.find? (·.name == name) with
    | some first =>
      simp only [hfirst, Option.some_or, Option.some_inj] at h
      exact ⟨[], chain, rest, rfl, nofun, h ▸ provides_of_find? hfirst⟩
    | none =>
      simp only [hfirst, Option.none_or] at h
      obtain ⟨earlier, super, later, rfl, hearlier, hsuper⟩ := exists_provides_of_find? h
      have hnone : chain.find? name = none := by
        rw [find?_eq_find?_allEntries, hfirst, Option.map_none]
      exact ⟨chain :: earlier, super, later, rfl,
        List.forall_mem_cons.mpr ⟨hnone, hearlier⟩, hsuper⟩
termination_by structural chains

end

/-- The first entry of a name below some chains is the first one in the first of those that have
one. -/
theorem find?_entriesOfAll_append {earlier later : List (MemberChain μ)} {name : String}
    (hearlier : ∀ other ∈ earlier, other.find? name = none) :
    (entriesOfAll (earlier ++ later)).find? (·.name == name)
      = (entriesOfAll later).find? (·.name == name) := by
  induction earlier with
  | nil => rfl
  | cons chain rest ih =>
    obtain ⟨hchain, hrest⟩ := List.forall_mem_cons.mp hearlier
    rw [find?_eq_find?_allEntries, Option.map_eq_none_iff] at hchain
    rw [List.cons_append, entriesOfAll, List.find?_append, hchain, Option.none_or, ih hrest]

theorem Provides.find?_allEntries {name : String} {chain : MemberChain μ} {cls : ClassTy}
    {member : μ} (h : Provides name chain cls member) :
    chain.allEntries.find? (·.name == name) = some ⟨cls, name, member⟩ := by
  induction h with
  | own hown => rw [MemberChain.find?_allEntries, hown]
  | inherited hown hsupers hearlier _ ih =>
    rw [MemberChain.find?_allEntries, hown, hsupers]
    simp only
    rw [find?_entriesOfAll_append hearlier, entriesOfAll, List.find?_append, ih, Option.some_or]

theorem find?_allEntries_iff {chain : MemberChain μ} {e : Entry μ} :
    chain.allEntries.find? (·.name == e.name) = some e ↔ Provides e.name chain e.cls e.member :=
  ⟨provides_of_find?, fun h => h.find?_allEntries⟩

/-- A name is listed with the member that it means, in the class that has it. -/
theorem mem_entries_iff {chain : MemberChain μ} {e : Entry μ} :
    e ∈ chain.entries true ↔ Provides e.name chain e.cls e.member := by
  rw [entries, if_pos rfl, mem_firstOfEachName, find?_allEntries_iff]
  exact and_iff_right List.not_mem_nil

theorem find?_eq_some_iff {chain : MemberChain μ} {name : String} {member : μ} :
    chain.find? name = some member ↔ ∃ cls, Provides name chain cls member := by
  rw [find?_eq_find?_allEntries, Option.map_eq_some_iff]
  constructor
  · rintro ⟨e, he, rfl⟩
    exact ⟨e.cls, provides_of_find? he⟩
  · rintro ⟨cls, h⟩
    exact ⟨_, h.find?_allEntries, rfl⟩

/-! Chains that come about by additions. -/

theorem mem_entriesOfAll {chains : List (MemberChain μ)} {e : Entry μ} :
    e ∈ entriesOfAll chains ↔ ∃ chain ∈ chains, e ∈ chain.allEntries := by
  induction chains with
  | nil => simp [entriesOfAll]
  | cons chain rest ih => simp [entriesOfAll, ih]

section

variable [ChainMember μ]

/-- The chain is made of a class and of chains that are made so, by additions. -/
inductive Made : MemberChain μ → Prop
  | new {cls : ClassTy} {supers : List (MemberChain μ)} :
    (∀ super ∈ supers, Made super) → Made (new cls supers)
  | add {chain : MemberChain μ} (member : μ) (authoritative : Bool) :
    Made chain → Made (chain.add member authoritative)

namespace Made

variable {chain : MemberChain μ}

theorem distinct (h : Made chain) : chain.own.Distinct := by
  induction h with
  | new => exact List.nodup_nil
  | add member authoritative _ ih =>
    rcases (add_cases _ member authoritative).2.2 with hown | ⟨hown, -⟩
    · exact hown ▸ ih.insert _ _
    · exact hown ▸ ih

theorem nodup_ownEntries (h : Made chain) : (chain.ownEntries.map (·.name)).Nodup := by
  rw [ownEntries, List.map_map]
  exact h.distinct

/-- Every member is under its own name. -/
theorem name_eq (h : Made chain) : ∀ e ∈ chain.allEntries, ChainMember.name e.member = e.name := by
  induction h with
  | new _ ih =>
    intro e he
    obtain ⟨super, hsuper, he⟩ := mem_entriesOfAll.mp he
    exact ih super hsuper e he
  | @add chain member authoritative _ ih =>
    intro e he
    obtain ⟨-, hsupers, hown⟩ := add_cases chain member authoritative
    rw [allEntries_eq] at ih
    rw [allEntries_eq, hsupers] at he
    rcases List.mem_append.mp he with he | he
    · obtain ⟨keyed, hkeyed, rfl⟩ := List.mem_map.mp he
      have hold (h : keyed ∈ chain.own.entries) : ChainMember.name keyed.2 = keyed.1 :=
        ih ⟨chain.cls, keyed.1, keyed.2⟩ (List.mem_append_left _ (List.mem_map_of_mem h))
      rcases hown with hown | ⟨hown, -⟩
      · rcases OrderedMap.eq_or_mem_of_mem_insert (hown ▸ hkeyed) with rfl | hkeyed
        · rfl
        · exact hold hkeyed
      · exact hold (hown ▸ hkeyed)
    · exact ih e (List.mem_append_right _ he)

theorem entries_own (h : Made chain) : chain.entries false = chain.ownEntries := by
  rw [entries, if_neg Bool.false_ne_true]
  exact firstOfEachName_eq_self (fun _ _ => List.not_mem_nil) h.nodup_ownEntries

/-- A listing has each name once. A deep one has the pairs of a name and the member that the name
means, each with the class of the chain that has the member; one that is not deep has the own
members. Whatever visitor goes through a listing is called on its entries in their order, on all of
them, or on those up to the one that it stops at. -/
theorem listing_agrees_with_lookup (h : Made chain) :
    (∀ deep, ((chain.entries deep).map (·.name)).Nodup) ∧
    (∀ name member, chain.find? name = some member ↔
      ∃ cls, ⟨cls, name, member⟩ ∈ chain.entries true) ∧
    (∀ e, e ∈ chain.entries true ↔ Provides e.name chain e.cls e.member) ∧
    chain.entries false = chain.ownEntries ∧
    (∀ deep, ∀ e ∈ chain.entries deep, ChainMember.name e.member = e.name) ∧
    ∀ (deep : Bool) (σ : Type) (visitor : Entry μ → StateM σ Flow) (s s' : σ),
      (GoesOn visitor (chain.entries deep) s s' →
        (chain.forEach visitor deep).run s = (.next, s')) ∧
      ∀ seen rest, chain.entries deep = seen ++ rest → StopsAfter visitor seen s s' →
        (chain.forEach visitor deep).run s = (.stop, s') := by
  refine ⟨fun deep => nodup_firstOfEachName _ _, fun name member => ?_, fun e => mem_entries_iff,
    h.entries_own, fun deep e he => ?_,
    fun deep σ visitor s s' => ⟨fun hgoes => ?_, fun seen rest hseen hstops => ?_⟩⟩
  · rw [find?_eq_some_iff]
    exact exists_congr fun cls => (mem_entries_iff (e := ⟨cls, name, member⟩)).symm
  · refine h.name_eq e ?_
    cases deep with
    | true => exact List.mem_of_find?_eq_some (mem_firstOfEachName.mp he).2
    | false =>
      rw [h.entries_own] at he
      exact allEntries_eq chain ▸ List.mem_append_left _ he
  · rw [forEach_eq_offer, hgoes.offer]
  · rw [forEach_eq_offer, hseen, hstops.offer]

end Made

/-- A method of a class. -/
def methodOf (cls name : String) : MemberDecl := ⟨name, cls, .method 1, 0, 0, false, false⟩

/-- Both superclasses have `x`, and one has `y` as well, which the class has itself. The visitor
writes down the names that it is called on and stops at `x`. -/
theorem listing_agrees_with_lookup_siblings :
    let first := (new (.declared "A" {}) []).add (methodOf "A" "x") false
    let second := (((new (.declared "B" {}) []).add (methodOf "B" "x") false).add
      (methodOf "B" "y") false).add (methodOf "B" "z") false
    let chain := (new (.declared "C" {}) [first, second]).add (methodOf "C" "y") false
    let visitor (e : Entry MemberDecl) : StateM (List String) Flow := do
      modify (· ++ [e.name])
      return if e.name = "x" then .stop else .next
    chain.Made ∧ (chain.forEach visitor true).run [] = (.stop, ["y", "x"]) := by
  intro first second chain visitor
  have hmade : chain.Made := by
    refine .add _ _ (.new (List.forall_mem_cons.mpr ⟨?_, List.forall_mem_singleton.mpr ?_⟩))
    · exact .add _ _ (.new nofun)
    · exact .add _ _ (.add _ _ (.add _ _ (.new nofun)))
  refine ⟨hmade, ?_⟩
  have hgoes : GoesOn visitor [⟨chain.cls, "y", methodOf "C" "y"⟩] [] ["y"] :=
    .cons rfl (.nil ["y"])
  have hstops : StopsAfter visitor [⟨chain.cls, "y", methodOf "C" "y"⟩,
      ⟨first.cls, "x", methodOf "A" "x"⟩] [] ["y", "x"] := .last hgoes rfl
  exact hmade.listing_agrees_with_lookup.2.2.2.2.2 true _ visitor [] _ |>.2 _
    [⟨second.cls, "z", methodOf "B" "z"⟩] rfl hstops

end

end MemberChain

end LuaTypes
