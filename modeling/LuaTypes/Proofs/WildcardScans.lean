import LuaTypes.Proofs.ChainMemo
import LuaTypes.Proofs.ExactVisits
import LuaTypes.Proofs.Overrides

/-!
Visits to all declarations of a class. They come in four groups: what the standard library defines,
what the project defines, and then what either extends, each group in the order of indexing. A chain
takes them in this order, so a definition of the standard library keeps its name against whatever
the project declares without authority.
-/

namespace LuaTypes

/-! The order of the declarations. -/

/-- The declarations of the standard library or of the project that define their class, or those
that extend it. -/
def declGroup (decls : List MemberDecl) (stdLib defining : Bool) : List MemberDecl :=
  decls.filter fun d => d.stdLib == stdLib && d.isDefining == defining

/-- The four groups of declarations, one after the other. -/
def inGroups (decls : List MemberDecl) : List MemberDecl :=
  declGroup decls true true ++ declGroup decls false true ++ declGroup decls true false
    ++ declGroup decls false false

theorem mem_declGroup {decls : List MemberDecl} {stdLib defining : Bool} {d : MemberDecl} :
    d ∈ declGroup decls stdLib defining ↔
      d ∈ decls ∧ d.stdLib = stdLib ∧ d.isDefining = defining := by
  simp [declGroup]

/-- The library first, and definitions before that. -/
theorem inGroups_eq (decls : List MemberDecl) :
    let ordered := decls.filter (·.stdLib) ++ decls.filter (!·.stdLib)
    inGroups decls = ordered.filter (·.isDefining) ++ ordered.filter (!·.isDefining) := by
  simp only [inGroups, declGroup, List.filter_append, List.filter_filter, List.append_assoc]
  simp [Bool.and_comm]

theorem perm_inGroups (decls : List MemberDecl) : (inGroups decls).Perm decls := by
  rw [inGroups_eq]
  exact (List.filter_append_perm _ _).trans (List.filter_append_perm _ _)

namespace Index

variable {ix : Index} {cls : String}

theorem classMembers_eq_inGroups (hready : ix.ready = true) :
    ix.classMembers cls = inGroups (ix.membersOf cls) := by
  rw [classMembers, hready, inGroups_eq]
  rfl

section

variable {m : Type → Type} [Monad m] [LawfulMonad m] (visitor : MemberDecl → m Flow)

/-- What is put off comes behind the definitions, and behind what was put off before. -/
theorem offer_visitDefining (decls : List MemberDecl) (putOff : Array MemberDecl) :
    (do
      match ← (offer (visitDefining visitor) decls).run putOff with
      | (.stop, _) => return .stop
      | (.next, extensions) => offer visitor extensions.toList)
    = offer visitor (decls.filter (·.isDefining) ++ (putOff.toList
        ++ decls.filter (!·.isDefining))) := by
  induction decls generalizing putOff with
  | nil => simp [offer]
  | cons d rest ih =>
    cases hdefining : d.isDefining with
    | true =>
      rw [List.filter_cons_of_pos hdefining, List.filter_cons_of_neg (by simp [hdefining]), offer]
      simp only [List.cons_append, offer, visitDefining, hdefining, if_true, StateT.run_bind,
        StateT.run_monadLift, bind_assoc, pure_bind]
      refine bind_congr fun flow => ?_
      cases flow with
      | stop => simp
      | next => exact ih putOff
    | false =>
      rw [List.filter_cons_of_neg (by simp [hdefining]),
        List.filter_cons_of_pos (by simp [hdefining]), offer]
      have hrest := ih (putOff.push d)
      rw [Array.toList_push, List.append_assoc, List.singleton_append] at hrest
      rw [← hrest]
      simp [visitDefining, hdefining]

/-- A visit to all declarations of a class offers them in their groups. -/
theorem visitWildcard_eq_offer (hready : ix.ready = true) :
    ix.visitWildcard visitor cls = offer visitor (inGroups (ix.membersOf cls)) := by
  rw [visitWildcard, hready, Bool.not_true, if_neg Bool.false_ne_true,
    List.partition_eq_filter_filter]
  refine (offer_visitDefining visitor _ #[]).trans ?_
  rw [inGroups_eq]
  rfl

end

end Index

/-! What takes whose place. -/

theorem MemberDecl.worth_of_isDefining {d : MemberDecl} (h : d.isDefining = true)
    (hauthority : d.authoritative = true → ∃ node, d.origin = .method node) :
    d.worth = worthMethod := by
  rw [MemberDecl.worth]
  cases hd : d.authoritative with
  | true =>
    obtain ⟨node, hnode⟩ := hauthority hd
    rw [hnode]
  | false =>
    rw [isDefining, hd, Bool.false_or] at h
    split at h
    · rename_i hnode
      rw [hnode]
      rfl
    · rename_i hnode
      rw [hnode]
    · cases h

/-- A definition of the standard library, or one with authority. Nothing is worth more. -/
structure MemberDecl.Firm (d : MemberDecl) : Prop where
  defining : d.isDefining = true
  worth : d.worth = worthMethod
  above : d.stdLib = true ∨ d.authoritative = true

namespace MemberChain

/-- Adds declarations one after the other, with the authority that they were indexed with. -/
def addIndexed (chain : MemberChain MemberDecl) (decls : List MemberDecl) :
    MemberChain MemberDecl :=
  decls.foldl (fun chain d => chain.add d d.authoritative) chain

section

variable {chain : MemberChain MemberDecl} {d old : MemberDecl} {name : String}

theorem supers_add (chain : MemberChain MemberDecl) (d : MemberDecl) (authoritative : Bool) :
    (chain.add d authoritative).supers = chain.supers := (add_cases chain d authoritative).2.1

theorem addIndexed_append (chain : MemberChain MemberDecl) (decls more : List MemberDecl) :
    chain.addIndexed (decls ++ more) = (chain.addIndexed decls).addIndexed more :=
  List.foldl_append

variable (hsupers : chain.supers = [])

include hsupers

theorem find?_of_no_supers : chain.find? name = chain.own.get? name := by
  rw [find?_eq, hsupers, findFirst?]
  cases chain.own.get? name <;> rfl

/-- A declaration without authority changes nothing where its name is held by one that is worth
most. -/
theorem add_of_held (hold : chain.own.get? d.name = some old) (hworth : old.worth = worthMethod) :
    chain.add d false = chain := by
  have hadmits : Admits chain.supers d := by
    rw [hsupers]
    exact nofun
  have hloses : replaces d old false (chain.claimed.contains d.name) = false := by
    have hmost : ¬old.worth < d.worth := by
      rw [hworth]
      exact Nat.not_lt.mpr d.worth_le
    simpa [replaces, ChainMember.worth] using hmost
  rw [add_of_admits hadmits, hold, Option.all_some, hloses]
  cases chain
  rfl

/-- Where a name is held firmly, it still is after one more declaration. -/
theorem firm_add (hold : chain.own.get? name = some old) (hfirm : old.Firm)
    (hauthority : d.authoritative = true → ∃ node, d.origin = .method node) :
    ∃ m, (chain.add d d.authoritative).own.get? name = some m ∧ m.Firm := by
  by_cases hname : name = d.name
  · subst hname
    cases hd : d.authoritative with
    | false => exact ⟨old, by rwa [add_of_held hsupers hold hfirm.worth], hfirm⟩
    | true =>
      have hdefining : d.isDefining = true := by rw [MemberDecl.isDefining, hd, Bool.true_or]
      rcases (add_cases chain d true).2.2 with hown | ⟨hown, -⟩
      · refine ⟨d, by rw [hown]; exact (OrderedMap.get?_insert ..).trans (if_pos rfl), ?_⟩
        exact ⟨hdefining, MemberDecl.worth_of_isDefining hdefining hauthority, .inr hd⟩
      · exact ⟨old, hown ▸ hold, hfirm⟩
  · refine ⟨old, ?_, hfirm⟩
    rcases (add_cases chain d d.authoritative).2.2 with hown | ⟨hown, -⟩
    · rw [hown]
      exact (OrderedMap.get?_insert ..).trans ((if_neg hname).trans hold)
    · rwa [hown]

theorem firm_addIndexed (hold : chain.own.get? name = some old) (hfirm : old.Firm)
    {decls : List MemberDecl}
    (hauthority : ∀ d ∈ decls, d.authoritative = true → ∃ node, d.origin = .method node) :
    ∃ m, (chain.addIndexed decls).own.get? name = some m ∧ m.Firm := by
  induction decls generalizing chain old with
  | nil => exact ⟨old, hold, hfirm⟩
  | cons d rest ih =>
    obtain ⟨hd, hrest⟩ := List.forall_mem_cons.mp hauthority
    obtain ⟨m, hm, hfirm⟩ := firm_add hsupers hold hfirm hd
    exact ih ((supers_add ..).trans hsupers) hm hfirm hrest

end

variable {c : ClassTy} {added : List MemberDecl}

/-- What the standard library defines is held firmly after its definitions are added, and from then
on. -/
theorem firm_of_definition
    (hauthority : ∀ d ∈ added, d.authoritative = true → ∃ node, d.origin = .method node)
    {std : MemberDecl} (hstd : std ∈ declGroup added true true) (more : List MemberDecl)
    (hmore : more ⊆ added) :
    ∃ m, ((new c []).addIndexed (declGroup added true true ++ more)).own.get? std.name = some m ∧
      m.Firm := by
  have hgathers := Gathers.foldl_add (new c []) (declGroup added true true) (·.authoritative)
  obtain ⟨m, hm⟩ := Option.isSome_iff_exists.mp (hgathers.has std hstd)
  have hfirm : m.Firm := by
    obtain ⟨hmem, -⟩ := (hgathers.finds _ m hm).resolve_left nofun
    obtain ⟨hadded, hlib, hdefining⟩ := mem_declGroup.mp hmem
    exact ⟨hdefining, MemberDecl.worth_of_isDefining hdefining (hauthority m hadded), .inl hlib⟩
  rw [addIndexed_append]
  refine firm_addIndexed hgathers.supers ?_ hfirm fun d hd => hauthority d (hmore hd)
  exact (find?_of_no_supers hgathers.supers).symm.trans hm

/-- The chain is made of these declarations in their groups. Where the standard library defines a
name, it is held by a definition, either of the library or with authority; and no declaration of the
project without authority has changed anything. -/
structure LibraryFirst (c : ClassTy) (added : List MemberDecl) (chain : MemberChain MemberDecl) :
    Prop where
  made : chain = (new c []).addIndexed (inGroups added)
  holds : ∀ std ∈ added, std.stdLib = true → std.isDefining = true →
    ∃ m ∈ added, chain.find? std.name = some m ∧ m.isDefining = true ∧
      (m.stdLib = true ∨ m.authoritative = true)
  keeps (seen : List MemberDecl) (d : MemberDecl) (rest : List MemberDecl) :
    inGroups added = seen ++ d :: rest → d.stdLib = false → d.authoritative = false →
    (∃ std ∈ added, std.name = d.name ∧ std.stdLib = true ∧ std.isDefining = true) →
    ((new c []).addIndexed seen).add d false = (new c []).addIndexed seen

theorem libraryFirst_addIndexed
    (hauthority : ∀ d ∈ added, d.authoritative = true → ∃ node, d.origin = .method node) :
    ((new c []).addIndexed (inGroups added)).LibraryFirst c added where
  made := rfl
  holds := by
    intro std hstd hlib hdefining
    have hgathers := Gathers.foldl_add (new c []) (inGroups added) (·.authoritative)
    obtain ⟨m, hm, hfirm⟩ := firm_of_definition (c := c) hauthority
      (mem_declGroup.mpr ⟨hstd, hlib, hdefining⟩) (declGroup added false true
        ++ declGroup added true false ++ declGroup added false false) (by simp [declGroup])
    rw [← List.append_assoc, ← List.append_assoc] at hm
    have hfind := (find?_of_no_supers hgathers.supers).trans hm
    obtain ⟨hmem, -⟩ := (hgathers.finds _ m hfind).resolve_left nofun
    exact ⟨m, (perm_inGroups added).subset hmem, hfind, hfirm.defining, hfirm.above⟩
  keeps := by
    rintro seen d rest hall hproject hplain ⟨std, hstd, hname, hlib, hdefining⟩
    -- The project comes after what the library defines.
    have hseen : ∃ more, seen = declGroup added true true ++ more := by
      have hd : d ∉ declGroup added true true := fun hmem => by
        rw [(mem_declGroup.mp hmem).2.1] at hproject
        cases hproject
      rw [inGroups, List.append_assoc, List.append_assoc] at hall
      rcases List.append_eq_append_iff.mp hall with ⟨more, hseen, -⟩ | ⟨more, hdefs, hrest⟩
      · exact ⟨more, hseen⟩
      · cases more with
        | nil => exact ⟨[], by rw [hdefs, List.append_nil, List.append_nil]⟩
        | cons first more =>
          obtain rfl : d = first := (List.cons.inj hrest).1
          exact absurd (by simp [hdefs]) hd
    obtain ⟨more, rfl⟩ := hseen
    have hmore : more ⊆ added := fun other hother => by
      refine (perm_inGroups added).subset ?_
      rw [hall]
      simp [hother]
    obtain ⟨m, hm, hfirm⟩ := firm_of_definition (c := c) hauthority
      (mem_declGroup.mpr ⟨hstd, hlib, hdefining⟩) more hmore
    rw [hname] at hm
    have hsupers := (Gathers.foldl_add (new c []) (declGroup added true true ++ more)
      (·.authoritative)).supers
    exact add_of_held hsupers hm hfirm.worth

/-- The chain of a named class without superclasses and without other names. -/
theorem newChain_of_named {env : Env} {memo : ClassMemo} (hnamed : c.origin = .named)
    (hsupers : env.resolver.superOf? (c.detailsIn env.resolver memo) = none)
    (hothers : c.otherNames env.settings.globalsAreTypes (c.detailsIn env.resolver memo) = []) :
    newChain env memo c = (new c []).addIndexed (env.index.classMembers c.name) := by
  have hcarried : originMembers env c = [] := by rw [originMembers, hnamed]
  rw [newChain_of_no_supers hsupers, hothers, fillChain]
  simp only [new, hcarried, List.foldl_nil, List.flatMap_nil]
  rfl

end MemberChain

namespace Index

/-- To look at all members of a class is to go through its declarations in four groups, and to lose
and repeat none: what the standard library defines, what the project defines, and then what either
extends, each in the order of indexing. A visit ends after the last of them, or after the one where
the visitor stops. If only methods have authority, as in the index of a program, the chain of a
named class with no superclasses and no other names keeps what the standard library defines from
declarations of the project without authority. -/
theorem Filled.visitWildcard_inGroups {ix : Index} {log : List MemberDecl} (h : ix.Filled log)
    (hready : ix.ready = true) (cls : String) :
    let added := log.filter (·.className = cls)
    let decls := inGroups added
    ix.classMembers cls = decls ∧ decls.Perm added ∧
    (∀ {σ : Type} (visitor : MemberDecl → StateM σ Flow) (s s' : σ),
      (GoesOn visitor decls s s' → (ix.visitWildcard visitor cls).run s = (.next, s')) ∧
      ∀ k, StopsAfter visitor (decls.take k) s s' →
        (ix.visitWildcard visitor cls).run s = (.stop, s')) ∧
    (∀ p, ix = ofProgram p →
      ∀ d ∈ added, d.authoritative = true → ∃ node, d.origin = .method node) ∧
    ((∀ d ∈ added, d.authoritative = true → ∃ node, d.origin = .method node) →
      ∀ (env : Env) (memo : ClassMemo) (c : ClassTy), env.index = ix → c.name = cls →
        c.origin = .named → env.resolver.superOf? (c.detailsIn env.resolver memo) = none →
        c.otherNames env.settings.globalsAreTypes (c.detailsIn env.resolver memo) = [] →
        (newChain env memo c).LibraryFirst c added) := by
  intro added decls
  have hmembers : ix.membersOf cls = added := h.membersOf cls
  have hdecls : ix.classMembers cls = decls := by rw [classMembers_eq_inGroups hready, hmembers]
  refine ⟨hdecls, perm_inGroups added, fun visitor s s' => ⟨fun hgoes => ?_, fun k hstops => ?_⟩,
    ?_, ?_⟩
  · rw [visitWildcard_eq_offer visitor hready, hmembers]
    exact hgoes.offer
  · rw [visitWildcard_eq_offer visitor hready, hmembers]
    have hoffer := hstops.offer (decls.drop k)
    rwa [List.take_append_drop] at hoffer
  · rintro p rfl d hd
    rw [← hmembers] at hd
    exact Addition.indexed_ofProgram (a := ⟨d, d.authoritative⟩) hd id
  · rintro hauthority env memo c rfl rfl hnamed hsupers hothers
    rw [MemberChain.newChain_of_named hnamed hsupers hothers, hdecls]
    exact MemberChain.libraryFirst_addIndexed hauthority

/-! A class that the project declares members on before the standard library does. -/

def extendedLog : List MemberDecl :=
  [⟨"m", "C", .assign 0, 0, 0, false, false⟩, ⟨"m", "C", .docField .number, 0, 1, false, false⟩,
    ⟨"m", "C", .tableField 2, 1, 0, true, false⟩, ⟨"n", "D", .method 3, 1, 1, true, false⟩,
    ⟨"m", "C", .method 4, 1, 2, true, false⟩]

def extended : Index := extendedLog.foldl addMember {}

theorem filled_extended : extended.Filled extendedLog := Filled.empty.foldl_addMember extendedLog

theorem ready_extended : extended.ready = true := by
  rw [extended, foldl_addMember_eq]

/-- A visitor that keeps the offsets and stops at the second declaration. The method of the standard
library, which was indexed last, holds its name. -/
theorem Filled.visitWildcard_inGroups_extended :
    let env : Env := ⟨Draft.build {}, extended, {}, fun _ => none, false⟩
    let visitor (d : MemberDecl) : StateM (List Nat) Flow := fun offsets =>
      (if offsets = [] then .next else .stop, d.offset :: offsets)
    extended.ready = true ∧
    extended.classMembers "C" = [extendedLog[4], extendedLog[1], extendedLog[2], extendedLog[0]] ∧
    (extended.visitWildcard visitor "C").run [] = (.stop, [1, 2]) ∧
    (newChain env {} (.declared "C" {})).find? "m" = some extendedLog[4] := by
  intro env visitor
  obtain ⟨hdecls, -, hvisit, -, hchain⟩ :=
    filled_extended.visitWildcard_inGroups ready_extended "C"
  have hstops : StopsAfter visitor [extendedLog[4], extendedLog[1]] [] [1, 2] :=
    .last (.cons rfl (.nil _) : GoesOn visitor [extendedLog[4]] [] [2]) rfl
  refine ⟨ready_extended, hdecls, (hvisit visitor [] [1, 2]).2 2 hstops, ?_⟩
  have hauthority : ∀ d ∈ extendedLog.filter (·.className = "C"), d.authoritative = true →
      ∃ node, d.origin = .method node := by
    simp [extendedLog]
  rw [(hchain hauthority env {} (.declared "C" {}) rfl rfl rfl rfl rfl).made]
  rfl

end Index

end LuaTypes
