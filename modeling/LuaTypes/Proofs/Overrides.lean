import Mathlib.Data.List.MinMax
import LuaTypes.Proofs.ChainMembers
import LuaTypes.Proofs.Filed
import LuaTypes.Proofs.MapKeys

/-!
The override rule as a whole. Of the declarations that are added to a chain only those count that
may stand before what the superclasses have of their name. Among these the first authoritative one
draws the name to its file, where the one furthest down wins; without one the first of those that are
worth most does.
-/

namespace LuaTypes

/-- A declaration that is added to a chain, and whether it claims its name with authority. -/
structure Addition where
  decl : MemberDecl
  authoritative : Bool

/-- What holds of whatever an index files: only methods are authoritative. -/
def Addition.Indexed (a : Addition) : Prop :=
  a.authoritative = true → ∃ node, a.decl.origin = .method node

/-- Of what a node declares only methods are authoritative. -/
theorem Collecting.origin_of_authoritative {p : Program} {file : SourceFile}
    {tagged : Std.HashMap String String} {id : NodeId} {d : MemberDecl}
    (h : d ∈ docFields p file id ++ nodeMembers p file tagged id) (hd : d.authoritative = true) :
    ∃ node, d.origin = .method node := by
  have hplain {cls name : String} {origin : MemberOrigin} {offset : Nat}
      (heq : declare file cls name origin offset false = d) : ∃ node, d.origin = .method node := by
    rw [← heq] at hd
    cases hd
  have htable {values : List NodeId} (h : d ∈ tableMembers p file id values) :
      ∃ node, d.origin = .method node := by
    unfold tableMembers at h
    split at h
    · obtain ⟨_, -, heq⟩ := List.mem_map.mp h
      exact hplain heq
    · cases h
  rcases List.mem_append.mp h with h | h
  · unfold docFields at h
    split at h
    · cases h
    · split at h
      · cases h
      · obtain ⟨f, -, heq⟩ := List.mem_map.mp h
        exact hplain heq
  · unfold nodeMembers at h
    split at h
    · obtain ⟨cls, -, rfl⟩ := Option.map_eq_some_iff.mp (Option.mem_toList.mp h)
      exact ⟨id, rfl⟩
    · exact hplain (List.mem_singleton.mp h).symm
    · rcases List.mem_append.mp h with h | h
      · obtain ⟨target, -, htarget⟩ := List.mem_filterMap.mp h
        unfold targetMember? at htarget
        split at htarget
        all_goals
          obtain ⟨_, -, heq⟩ := Option.map_eq_some_iff.mp htarget
          exact hplain heq
      · exact htable h
    · exact htable h
    · cases h

/-- What an index files may be added with the authority that it was filed with, or with none. -/
theorem Addition.indexed_ofProgram {p : Program} {cls : String} {a : Addition}
    (h : a.decl ∈ (Index.ofProgram p).membersOf cls)
    (hauthority : a.authoritative = true → a.decl.authoritative = true) : a.Indexed := by
  intro ha
  obtain ⟨-, file, -, id, -, hmem⟩ := Index.mem_membersOf_ofProgram.mp h
  exact Collecting.origin_of_authoritative hmem (hauthority ha)

theorem MemberDecl.worth_le (d : MemberDecl) : d.worth ≤ worthMethod := by
  rw [MemberDecl.worth]
  cases d.origin <;> simp [worthMethod, worthDocField, worthTableField, worthAssign]

theorem Addition.Indexed.worth_eq {a : Addition} (h : a.Indexed) (ha : a.authoritative = true) :
    a.decl.worth = worthMethod := by
  obtain ⟨node, hnode⟩ := h ha
  rw [MemberDecl.worth, hnode]

namespace MemberChain

/-- Adds declarations one after the other. -/
def addAll (chain : MemberChain MemberDecl) (adds : List Addition) : MemberChain MemberDecl :=
  adds.foldl (fun chain a => chain.add a.decl a.authoritative) chain

/-- The declaration may stand before what the superclasses have of its name: it is worth more, or as
much and more than a plain assignment. -/
def Admits (supers : List (MemberChain MemberDecl)) (d : MemberDecl) : Prop :=
  ∀ inherited ∈ findFirst? supers d.name,
    inherited.worth < d.worth ∨ d.worth = inherited.worth ∧ worthAssign < d.worth

instance (supers : List (MemberChain MemberDecl)) (d : MemberDecl) : Decidable (Admits supers d) :=
  inferInstanceAs (Decidable (∀ inherited ∈ findFirst? supers d.name,
    inherited.worth < d.worth ∨ d.worth = inherited.worth ∧ worthAssign < d.worth))

/-- The additions of a name that count, in their order. -/
def contenders (supers : List (MemberChain MemberDecl)) (adds : List Addition) (name : String) :
    List Addition :=
  adds.filter fun a => a.decl.name = name ∧ Admits supers a.decl

/-- The addition that wins the name among those that count. Of several that come first in what
decides, the earliest does. -/
def winner? (among : List Addition) : Option Addition :=
  match among.find? (·.authoritative) with
  | some first =>
    (among.filter fun a => a.authoritative && a.decl.file == first.decl.file).argmax (·.decl.offset)
  | none => among.argmax (·.decl.worth)

/-! What one more addition changes. -/

theorem admits_iff {chain : MemberChain MemberDecl} {d : MemberDecl} :
    (chain.findSuper? d.name).all (fun inherited => mayOverride d.worth inherited.worth) = true
      ↔ Admits chain.supers d := by
  rw [findSuper?, Admits]
  cases findFirst? chain.supers d.name <;> simp [mayOverride]

theorem add_of_not_admits {chain : MemberChain MemberDecl} {d : MemberDecl}
    (h : ¬Admits chain.supers d) (authoritative : Bool) : chain.add d authoritative = chain := by
  rw [← admits_iff, Bool.not_eq_true] at h
  simp only [add, ChainMember.name, ChainMember.worth, h]
  rfl

theorem add_of_admits {chain : MemberChain MemberDecl} {d : MemberDecl}
    (h : Admits chain.supers d) (authoritative : Bool) :
    chain.add d authoritative = { chain with
      own := if (chain.own.get? d.name).all fun old =>
          replaces d old authoritative (chain.claimed.contains d.name)
        then chain.own.insert d.name d else chain.own
      claimed := if authoritative then d.name :: chain.claimed else chain.claimed } := by
  rw [← admits_iff] at h
  simp only [add, ChainMember.name, ChainMember.worth, h]
  rfl

theorem contenders_append (supers : List (MemberChain MemberDecl)) (adds : List Addition)
    (a : Addition) (name : String) : contenders supers (adds ++ [a]) name
      = if a.decl.name = name ∧ Admits supers a.decl then contenders supers adds name ++ [a]
        else contenders supers adds name := by
  by_cases ha : a.decl.name = name ∧ Admits supers a.decl <;> simp [contenders, ha]

theorem winner?_eq_none_iff {among : List Addition} : winner? among = none ↔ among = [] := by
  unfold winner?
  cases hfirst : among.find? (·.authoritative) with
  | none => exact List.argmax_eq_none
  | some first =>
    have hmem := List.mem_of_find?_eq_some hfirst
    have hauth := List.find?_some hfirst
    simp only [List.argmax_eq_none, List.filter_eq_nil_iff]
    constructor
    · intro hnone
      exact absurd (by simp [hauth]) (hnone first hmem)
    · rintro rfl
      cases hmem

/-- The winner is authoritative if any of them is, and in the file of the first one that is. -/
theorem winner?_of_find? {among : List Addition} {first old : Addition}
    (hfirst : among.find? (·.authoritative) = some first) (h : winner? among = some old) :
    old ∈ among ∧ old.authoritative = true ∧ old.decl.file = first.decl.file := by
  simp only [winner?, hfirst] at h
  have hmem := List.argmax_mem h
  simp only [List.mem_filter, Bool.and_eq_true, beq_iff_eq] at hmem
  exact hmem

theorem winner?_append_of_none (a : Addition) {among : List Addition}
    (h : winner? among = none) : winner? (among ++ [a]) = some a := by
  obtain rfl := winner?_eq_none_iff.mp h
  cases ha : a.authoritative <;> simp [winner?, ha]

/-- One more addition wins over the winner so far just as it takes its place in a chain. -/
theorem winner?_append_of_some {among : List Addition} {old : Addition} (a : Addition)
    (hamong : ∀ b ∈ among, b.Indexed) (h : winner? among = some old) :
    winner? (among ++ [a]) =
      if replaces a.decl old.decl a.authoritative (among.any (·.authoritative)) then some a
      else some old := by
  have hworth : a.decl.worth ≤ worthMethod := a.decl.worth_le
  cases hfirst : among.find? (·.authoritative) with
  | some first =>
    obtain ⟨hold, hauth, hfile⟩ := winner?_of_find? hfirst h
    have hclaimed : among.any (·.authoritative) = true :=
      List.any_eq_true.mpr ⟨old, hold, hauth⟩
    -- An authoritative declaration is a method, and nothing is worth more.
    have holdWorth : old.decl.worth = worthMethod := (hamong old hold).worth_eq hauth
    have hnotMore : ¬old.decl.worth < a.decl.worth := by omega
    have happend : (among ++ [a]).find? (·.authoritative) = some first := by
      rw [List.find?_append, hfirst, Option.some_or]
    simp only [winner?, hfirst] at h
    simp only [winner?, happend, List.filter_append, List.filter_singleton, replaces, hclaimed]
    cases haAuth : a.authoritative with
    | false => simpa [ChainMember.worth, hnotMore] using h
    | true =>
      cases hsame : a.decl.file == first.decl.file with
      | false =>
        have hother : ¬old.decl.file = a.decl.file := fun heq => by
          rw [← heq, hfile, beq_self_eq_true] at hsame
          cases hsame
        simpa [ChainMember.worth, ChainMember.file, hnotMore, hother] using h
      | true =>
        have hsame : old.decl.file = a.decl.file := hfile.trans (beq_iff_eq.mp hsame).symm
        simp [ChainMember.worth, ChainMember.file, ChainMember.offset, hnotMore, hsame,
          List.argmax_concat, h]
  | none =>
    have hnone : among.any (·.authoritative) = false :=
      List.any_eq_false.mpr fun b hb => List.find?_eq_none.mp hfirst b hb
    have happend : (among ++ [a]).find? (·.authoritative) = [a].find? (·.authoritative) := by
      rw [List.find?_append, hfirst, Option.none_or]
    simp only [winner?, hfirst] at h
    cases haAuth : a.authoritative with
    | false =>
      simp [winner?, happend, haAuth, replaces, ChainMember.worth, List.argmax_concat, h]
    | true =>
      have hfilter : (among.filter fun b => b.authoritative && b.decl.file == a.decl.file) = [] := by
        refine List.filter_eq_nil_iff.mpr fun b hb => ?_
        simp [List.any_eq_false.mp hnone b hb]
      simp [winner?, happend, haAuth, replaces, hnone, List.filter_append, hfilter]

/-- One more addition wins just if it takes the place of what there is in a chain. -/
theorem winner?_append {among : List Addition} (a : Addition) (hamong : ∀ b ∈ among, b.Indexed) :
    winner? (among ++ [a]) =
      if ((winner? among).map (·.decl)).all fun old =>
          replaces a.decl old a.authoritative (among.any (·.authoritative))
      then some a else winner? among := by
  cases h : winner? among with
  | none => exact winner?_append_of_none a h
  | some old => exact winner?_append_of_some a hamong h

end MemberChain

/-! The names of a map, oldest first. -/

theorem eraseDups_concat (names : List String) (name : String) : (names ++ [name]).eraseDups
    = if name ∈ names then names.eraseDups else names.eraseDups ++ [name] := by
  rw [List.eraseDups_append]
  by_cases hname : name ∈ names <;> simp [List.removeAll, hname, List.eraseDups_cons]

namespace MemberChain

/-- What a chain that was made new is like after some additions. -/
structure Decided (supers : List (MemberChain MemberDecl)) (adds : List Addition)
    (chain : MemberChain MemberDecl) : Prop where
  inherits : chain.supers = supers
  own (name : String) : chain.own.get? name = (winner? (contenders supers adds name)).map (·.decl)
  claimed (name : String) :
    chain.claimed.contains name = (contenders supers adds name).any (·.authoritative)
  names : chain.own.entries.map (·.1)
    = ((adds.filter fun a => Admits supers a.decl).map (·.decl.name)).eraseDups

namespace Decided

variable {supers : List (MemberChain MemberDecl)} {adds : List Addition}
  {chain : MemberChain MemberDecl}

theorem new (cls : ClassTy) (supers : List (MemberChain MemberDecl)) :
    Decided supers [] (.new cls supers) :=
  ⟨rfl, fun _ => rfl, fun _ => rfl, rfl⟩

/-- The names that are in the chain are those that something was let in for. -/
theorem isSome_get?_iff (h : Decided supers adds chain) (name : String) :
    (chain.own.get? name).isSome
      ↔ name ∈ (adds.filter fun a => Admits supers a.decl).map (·.decl.name) := by
  rw [OrderedMap.isSome_get?_iff, h.names, List.mem_eraseDups]

theorem add (h : Decided supers adds chain) (hadds : ∀ b ∈ adds, b.Indexed) (a : Addition) :
    Decided supers (adds ++ [a]) (chain.add a.decl a.authoritative) := by
  rw [← h.inherits] at *
  by_cases hadmits : Admits chain.supers a.decl
  · rw [add_of_admits hadmits]
    have hindexed : ∀ b ∈ contenders chain.supers adds a.decl.name, b.Indexed := fun b hb =>
      hadds b (List.mem_filter.mp hb).1
    have hwins := winner?_append a hindexed
    rw [← h.own, ← h.claimed] at hwins
    have hcontenders (name : String) : contenders chain.supers (adds ++ [a]) name =
        if a.decl.name = name then contenders chain.supers adds name ++ [a]
        else contenders chain.supers adds name := by
      simp [contenders_append, hadmits]
    refine ⟨rfl, fun name => ?_, fun name => ?_, ?_⟩
    · rw [hcontenders]
      by_cases hname : a.decl.name = name
      · subst hname
        rw [if_pos rfl, hwins]
        dsimp only
        split
        · simp
        · exact h.own _
      · rw [if_neg hname, ← h.own]
        dsimp only
        split
        · rw [OrderedMap.get?_insert, if_neg (Ne.symm hname)]
        · rfl
    · rw [hcontenders]
      by_cases hname : a.decl.name = name
      · subst hname
        rw [if_pos rfl, List.any_append, ← h.claimed]
        cases ha : a.authoritative <;> simp [ha]
      · have hname' : (name == a.decl.name) = false := beq_eq_false_iff_ne.mpr (Ne.symm hname)
        rw [if_neg hname, ← h.claimed]
        cases a.authoritative
        · rfl
        · simp only [if_true, List.contains_cons, hname', Bool.false_or]
    · rw [List.filter_append, List.map_append, List.filter_singleton]
      simp only [hadmits, decide_true, cond_true, List.map_singleton]
      rw [eraseDups_concat, ← h.names]
      simp only [← h.isSome_get?_iff]
      split
      · exact chain.own.keys_insert a.decl.name a.decl
      · rename_i hloses
        cases hown : chain.own.get? a.decl.name with
        | none => simp [hown] at hloses
        | some old => rfl
  · rw [add_of_not_admits hadmits]
    refine ⟨rfl, fun name => ?_, fun name => ?_, ?_⟩
    · rw [h.own, contenders_append, if_neg fun ha => hadmits ha.2]
    · rw [h.claimed, contenders_append, if_neg fun ha => hadmits ha.2]
    · rw [h.names, List.filter_append, List.filter_singleton]
      simp [hadmits]

theorem addAll {chain : MemberChain MemberDecl} {before : List Addition}
    (h : Decided supers before chain) (hbefore : ∀ b ∈ before, b.Indexed) {adds : List Addition}
    (hadds : ∀ b ∈ adds, b.Indexed) : Decided supers (before ++ adds) (chain.addAll adds) := by
  induction adds generalizing chain before with
  | nil => simpa [MemberChain.addAll] using h
  | cons a adds ih =>
    obtain ⟨ha, hadds⟩ := List.forall_mem_cons.mp hadds
    have hnext := ih (h.add hbefore a) (List.forall_mem_append.mpr
      ⟨hbefore, List.forall_mem_singleton.mpr ha⟩) hadds
    rwa [List.append_assoc] at hnext

end Decided

/-- A chain has a member of a name exactly if some declaration of the name that is added may stand
before what the superclasses have. If authoritative ones are among these, the member is the one
furthest down among those in the file of the first, and otherwise the first of those worth most. The
names are in the order in which something was first let in for them. -/
theorem addAll_closedForm (cls : ClassTy) (supers : List (MemberChain MemberDecl))
    (adds : List Addition) (h : ∀ a ∈ adds, a.Indexed) :
    let chain := (new cls supers).addAll adds
    (∀ name, let among := contenders supers adds name
      (chain.own.contains name = true ↔ among ≠ []) ∧
      (∀ first, among.find? (·.authoritative) = some first →
        chain.own.get? name = ((among.filter fun a =>
          a.authoritative && a.decl.file == first.decl.file).argmax (·.decl.offset)).map (·.decl)) ∧
      (among.find? (·.authoritative) = none →
        chain.own.get? name = (among.argmax (·.decl.worth)).map (·.decl))) ∧
    chain.own.entries.map (·.1)
      = ((adds.filter fun a => Admits supers a.decl).map (·.decl.name)).eraseDups := by
  have hdecided := (Decided.new cls supers).addAll nofun h
  rw [List.nil_append] at hdecided
  refine ⟨fun name => ⟨?_, fun first hfirst => ?_, fun hnone => ?_⟩, hdecided.names⟩
  · rw [OrderedMap.contains, hdecided.own, Option.isSome_map, Option.isSome_iff_ne_none, ne_eq,
      winner?_eq_none_iff]
  · rw [hdecided.own, winner?, hfirst]
  · rw [hdecided.own, winner?, hnone]

/-- A declaration of `m` at an offset of a file. -/
def contestant (origin : MemberOrigin) (file : FileId) (offset : Nat) (authoritative : Bool) :
    Addition :=
  ⟨⟨"m", "C", origin, file, offset, false, authoritative⟩, authoritative⟩

/-- The superclass has a plain assignment, which the first declaration may not stand before. -/
theorem addAll_closedForm_contested :
    let inherited := contestant (.assign 1) 0 1 false
    let supers := [(new (.declared "S" {}) []).addAll [inherited]]
    let winner := contestant (.method 7) 1 12 true
    let adds := [contestant (.assign 2) 0 2 false, contestant (.tableField 3) 0 3 false,
      contestant (.method 4) 1 9 true, contestant (.method 6) 2 20 true, winner,
      contestant (.docField .number) 1 30 false]
    (∀ a ∈ adds, a.Indexed) ∧
      ((new (.declared "C" {}) supers).addAll adds).own.get? "m" = some winner.decl := by
  intro inherited supers winner adds
  have hindexed : ∀ a ∈ adds, a.Indexed := by
    simp [adds, winner, contestant, Addition.Indexed]
  refine ⟨hindexed, ?_⟩
  have hclosed := (addAll_closedForm (.declared "C" {}) supers adds hindexed).1 "m"
  exact hclosed.2.1 (contestant (.method 4) 1 9 true) rfl

end MemberChain

end LuaTypes
