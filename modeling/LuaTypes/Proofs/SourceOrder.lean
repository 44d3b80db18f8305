import Mathlib.Logic.Relation
import LuaTypes.Proofs.Places

/-!
Source order. The files reach just the nodes below their roots. In a tree-shaped program each of
these nodes comes before what is below it, and the nodes below a child before those below a later
child.
-/

namespace LuaTypes

/-- Of two members of a list, one stands before the other. -/
theorem pair_sublist_or {α : Type} {l : List α} {a b : α} (ha : a ∈ l) (hb : b ∈ l) (hne : a ≠ b) :
    [a, b].Sublist l ∨ [b, a].Sublist l := by
  obtain ⟨before, after, rfl⟩ := List.append_of_mem ha
  rcases List.mem_append.mp hb with hb | hb
  · exact .inr ((List.singleton_sublist.mpr hb).append (.cons_cons a (List.nil_sublist after)))
  · have hb := (List.mem_cons.mp hb).resolve_left (Ne.symm hne)
    exact .inl ((List.nil_sublist before).append (.cons_cons a (List.singleton_sublist.mpr hb)))

namespace Program

/-- The second node is the first one, or below it. -/
abbrev Contains (p : Program) : NodeId → NodeId → Prop := Relation.ReflTransGen p.HasChild

/-- The node is in a file. -/
def Reached (p : Program) (id : NodeId) : Prop :=
  ∃ (file : FileId) (f : SourceFile), p.files[file]? = some f ∧ p.Contains f.root id

/-- Both nodes are in one file, where the first one comes before the second. -/
def Before (p : Program) (first second : NodeId) : Prop :=
  ∃ a b, p.place? first = some a ∧ p.place? second = some b ∧ a.file = b.file ∧ a.offset < b.offset

variable {p : Program}

theorem Before.irrefl {id : NodeId} : ¬p.Before id id := by
  rintro ⟨a, b, ha, hb, -, hlt⟩
  obtain rfl : a = b := Option.some_inj.mp (ha.symm.trans hb)
  exact Nat.lt_irrefl _ hlt

theorem Before.trans {first second third : NodeId} (h : p.Before first second)
    (h' : p.Before second third) : p.Before first third := by
  obtain ⟨a, b, ha, hb, hfile, hlt⟩ := h
  obtain ⟨b', c, hb', hc, hfile', hlt'⟩ := h'
  obtain rfl : b = b' := Option.some_inj.mp (hb.symm.trans hb')
  exact ⟨a, c, ha, hc, hfile.trans hfile', Nat.lt_trans hlt hlt'⟩

theorem Reached.below {id other : NodeId} (h : p.Reached id) (hbelow : p.Contains id other) :
    p.Reached other := by
  obtain ⟨file, f, hfile, hroot⟩ := h
  exact ⟨file, f, hfile, hroot.trans hbelow⟩

theorem node?_of_hasChild {id child : NodeId} (h : p.HasChild id child) : p.node? id ≠ none := by
  obtain ⟨node, hnode, -⟩ := h
  simp [hnode]

/-! The links of a walk, and which nodes they lead to. -/

section

variable {room : Nat} {parent? : Option NodeId} {root : NodeId}

theorem contains_of_mem_preorderWithin {link : NodeId × Option NodeId}
    (h : link ∈ preorderWithin p.nodes room parent? root) : p.Contains root link.1 := by
  induction room generalizing parent? root with
  | zero => cases h
  | succ room ih =>
    rw [preorderWithin] at h
    cases hnode : p.nodes[root]? with
    | none => simp [hnode] at h
    | some node =>
      simp only [hnode, List.mem_cons, List.mem_flatMap] at h
      rcases h with rfl | ⟨child, hchild, h⟩
      · exact .refl
      · exact .head ⟨node, hnode, hchild⟩ (ih h)

/-- There is a link to each node below the root, where there is room for all. -/
theorem mem_preorderWithin_of_contains (h : p.FitsBelow room root) {id : NodeId}
    (hbelow : p.Contains root id) (hnode : p.node? id ≠ none) :
    ∃ above?, (id, above?) ∈ preorderWithin p.nodes room parent? root := by
  induction hbelow with
  | refl => exact ⟨parent?, self_mem_preorderWithin h hnode⟩
  | tail _ hchild ih =>
    obtain ⟨above?, habove⟩ := ih (node?_of_hasChild hchild)
    exact ⟨_, child_mem_preorderWithin h habove hchild hnode⟩

/-- The links from a node on stand together among the links from the root. -/
theorem preorderWithin_split (h : p.FitsBelow room root) {link : NodeId × Option NodeId}
    (hlink : link ∈ preorderWithin p.nodes room parent? root) :
    ∃ own before after, p.FitsBelow own link.1 ∧ preorderWithin p.nodes room parent? root
      = before ++ preorderWithin p.nodes own link.2 link.1 ++ after := by
  induction room generalizing parent? root with
  | zero => cases hlink
  | succ room ih =>
    have hself : ∃ own before after, p.FitsBelow own root ∧
        preorderWithin p.nodes (room + 1) parent? root
          = before ++ preorderWithin p.nodes own parent? root ++ after :=
      ⟨room + 1, [], [], h, by simp⟩
    rw [preorderWithin] at hlink
    cases hnode : p.nodes[root]? with
    | none => simp [hnode] at hlink
    | some node =>
      simp only [hnode, List.mem_cons, List.mem_flatMap] at hlink
      rcases hlink with rfl | ⟨child, hchild, hlink⟩
      · exact hself
      · obtain ⟨own, before, after, hfits, hsplit⟩ := ih (h.child hnode hchild) hlink
        obtain ⟨left, right, hchildren⟩ := List.append_of_mem hchild
        let walk := preorderWithin p.nodes room (some root)
        refine ⟨own, (root, parent?) :: left.flatMap walk ++ before, after ++ right.flatMap walk,
          hfits, ?_⟩
        simp [preorderWithin, hnode, hchildren, hsplit, walk]

end

end Program

namespace Draft

open Program (Contains Reached Before HasChild)

variable {d : Draft}

theorem reached_iff {id : NodeId} :
    d.build.Reached id ↔
      ∃ (file : FileId) (f : DraftFile), d.files[file]? = some f ∧ d.build.Contains f.root id := by
  constructor
  · rintro ⟨file, f, hfile, hroot⟩
    simp only [build, Array.getElem?_mapIdx, Option.map_eq_some_iff] at hfile
    obtain ⟨f, hfile, rfl⟩ := hfile
    exact ⟨file, f, hfile, hroot⟩
  · rintro ⟨file, f, hfile, hroot⟩
    exact ⟨file, ⟨file, f.path, f.root, f.stdLib⟩, by simp [build, hfile], hroot⟩

theorem reached_of_place? {id : NodeId} {place : Place} (h : d.build.place? id = some place) :
    d.build.Reached id := by
  obtain ⟨f, hfile, hlink⟩ := link_of_place? h
  exact reached_iff.mpr
    ⟨place.file, f, hfile, Program.contains_of_mem_preorderWithin (p := d.build) hlink⟩

namespace TreeShaped

variable (h : d.TreeShaped)

include h

/-- A node in a file has a link to it. -/
theorem link_of_reached {id : NodeId} (hid : d.build.Reached id) (hnode : d.build.node? id ≠ none) :
    ∃ (file : FileId) (f : DraftFile) (parent? : Option NodeId), d.files[file]? = some f ∧
      (id, parent?) ∈ linksFrom d.nodes f.root := by
  obtain ⟨file, f, hfile, hroot⟩ := reached_iff.mp hid
  obtain ⟨parent?, hlink⟩ :=
    Program.mem_preorderWithin_of_contains (h.acyclic.fitsBelow f.root) hroot hnode
  exact ⟨file, f, parent?, hfile, hlink⟩

theorem place?_of_reached {id : NodeId} (hid : d.build.Reached id)
    (hnode : d.build.node? id ≠ none) : ∃ place, d.build.place? id = some place := by
  obtain ⟨file, f, parent?, hfile, hlink⟩ := h.link_of_reached hid hnode
  obtain ⟨offset, hplace⟩ := h.place?_of_link hfile hlink hnode
  exact ⟨_, hplace⟩

/-- The parent of a node in a file is the one node that has it as a child. -/
theorem parent?_eq {id child : NodeId} (hid : d.build.Reached id)
    (hbelow : d.build.HasChild id child) (hchild : d.build.node? child ≠ none) :
    d.build.parent? child = some id := by
  obtain ⟨place, hplace⟩ := h.place?_of_reached hid (Program.node?_of_hasChild hbelow)
  obtain ⟨offset, hplaceChild⟩ := h.place?_child hplace hbelow hchild
  simp [Program.parent?, hplaceChild]

/-- Of two links of a file, the first one leads to the node that comes before. -/
theorem before_of_append {file : FileId} {f : DraftFile} (hfile : d.files[file]? = some f)
    {earlier later : List (NodeId × Option NodeId)}
    (hlinks : linksFrom d.nodes f.root = earlier ++ later) {first second : NodeId × Option NodeId}
    (hfirst : first ∈ earlier) (hsecond : second ∈ later) (hnode : d.build.node? first.1 ≠ none)
    (hnode' : d.build.node? second.1 ≠ none) : d.build.Before first.1 second.1 := by
  obtain ⟨i, hi⟩ := List.mem_iff_getElem?.mp hfirst
  obtain ⟨j, hj⟩ := List.mem_iff_getElem?.mp hsecond
  have hlt : i < earlier.length := (List.getElem?_eq_some_iff.mp hi).1
  have hi' : (linksFrom d.nodes f.root)[i]? = some first := by
    rw [hlinks, List.getElem?_append_left hlt, hi]
  have hj' : (linksFrom d.nodes f.root)[earlier.length + j]? = some second := by
    rw [hlinks, List.getElem?_append_right (by omega), Nat.add_sub_cancel_left, hj]
  exact ⟨_, _, h.place?_of_getElem? hfile hi' hnode, h.place?_of_getElem? hfile hj' hnode', rfl,
    Nat.lt_add_right j hlt⟩

variable {id : NodeId} (hid : d.build.Reached id)

include hid

/-- In its file the link to a node is followed by the links from its children on. -/
theorem links_of_reached {node : Node} (hnode : d.build.node? id = some node) :
    ∃ (file : FileId) (f : DraftFile) (room : Nat) (parent? : Option NodeId)
      (before after : List (NodeId × Option NodeId)),
      d.files[file]? = some f ∧ d.build.FitsBelow (room + 1) id ∧
      linksFrom d.nodes f.root = before ++ [(id, parent?)] ++
        node.children.flatMap (preorderWithin d.nodes room (some id)) ++ after := by
  obtain ⟨file, f, parent?, hfile, hlink⟩ := h.link_of_reached hid (by simp [hnode])
  obtain ⟨own, before, after, hfits, hsplit⟩ :=
    Program.preorderWithin_split (h.acyclic.fitsBelow f.root) hlink
  cases own with
  | zero => exact absurd (by simp [hnode]) hfits
  | succ room =>
    refine ⟨file, f, room, parent?, before, after, hfile, hfits, hsplit.trans ?_⟩
    have hget : d.nodes[id]? = some node := hnode
    simp [preorderWithin, build, hget]

/-- A node comes before its children. -/
theorem before_child {child : NodeId} (hbelow : d.build.HasChild id child)
    (hchild : d.build.node? child ≠ none) : d.build.Before id child := by
  obtain ⟨node, hnode, hmem⟩ := hbelow
  obtain ⟨file, f, room, parent?, before, after, hfile, hfits, hlinks⟩ :=
    h.links_of_reached hid hnode
  rw [List.append_assoc] at hlinks
  have hparent : (id, parent?) ∈ before ++ [(id, parent?)] :=
    List.mem_append_right _ (List.mem_singleton_self _)
  have hbelow : (child, some id) ∈
      node.children.flatMap (preorderWithin d.nodes room (some id)) ++ after :=
    List.mem_append_left _ (List.mem_flatMap.mpr ⟨child, hmem,
      self_mem_preorderWithin (p := d.build) (hfits.child hnode hmem) hchild⟩)
  exact h.before_of_append hfile hlinks hparent hbelow (by simp [hnode]) hchild

/-- What a child contains comes before what a later child contains. -/
theorem before_of_children {node : Node} (hnode : d.build.node? id = some node)
    {left right : NodeId} (hchildren : [left, right].Sublist node.children) {first second : NodeId}
    (hleft : d.build.Contains left first) (hright : d.build.Contains right second)
    (hfirst : d.build.node? first ≠ none) (hsecond : d.build.node? second ≠ none) :
    d.build.Before first second := by
  obtain ⟨file, f, room, parent?, before, after, hfile, hfits, hlinks⟩ :=
    h.links_of_reached hid hnode
  obtain ⟨lefts, rights, hsplit, hmem, hmem'⟩ := List.cons_sublist_iff.mp hchildren
  rw [List.singleton_sublist] at hmem'
  have hlink {child other : NodeId} (hchild : child ∈ node.children)
      (hother : d.build.Contains child other) (hnode' : d.build.node? other ≠ none) :
      ∃ above?, (other, above?) ∈ preorderWithin d.nodes room (some id) child :=
    Program.mem_preorderWithin_of_contains (hfits.child hnode hchild) hother hnode'
  obtain ⟨above?, hlinkFirst⟩ := hlink (hsplit ▸ List.mem_append_left _ hmem) hleft hfirst
  obtain ⟨above'?, hlinkSecond⟩ := hlink (hsplit ▸ List.mem_append_right _ hmem') hright hsecond
  rw [hsplit, List.flatMap_append, ← List.append_assoc, List.append_assoc] at hlinks
  have hearlier : (first, above?) ∈
      before ++ [(id, parent?)] ++ lefts.flatMap (preorderWithin d.nodes room (some id)) :=
    List.mem_append_right _ (List.mem_flatMap.mpr ⟨left, hmem, hlinkFirst⟩)
  have hlater : (second, above'?) ∈
      rights.flatMap (preorderWithin d.nodes room (some id)) ++ after :=
    List.mem_append_left _ (List.mem_flatMap.mpr ⟨right, hmem', hlinkSecond⟩)
  exact h.before_of_append hfile hlinks hearlier hlater hfirst hsecond

/-- A node comes before whatever else it contains. -/
theorem before_of_contains {other : NodeId} (hbelow : d.build.Contains id other)
    (hother : d.build.node? other ≠ none) : id = other ∨ d.build.Before id other := by
  induction hbelow with
  | refl => exact .inl rfl
  | @tail parent child habove hchild ih =>
    have hnext := h.before_child (hid.below habove) hchild hother
    rcases ih (Program.node?_of_hasChild hchild) with rfl | hbefore
    · exact .inr hnext
    · exact .inr (hbefore.trans hnext)

/-- A node is in just one child of a node around it. -/
theorem child_unique {left right other : NodeId} (hleft : d.build.HasChild id left)
    (hright : d.build.HasChild id right) (hleftOther : d.build.Contains left other)
    (hrightOther : d.build.Contains right other) (hother : d.build.node? other ≠ none) :
    left = right := by
  obtain ⟨node, hnode, hmem⟩ := hleft
  obtain ⟨node', hnode', hmem'⟩ := hright
  obtain rfl : node = node' := Option.some_inj.mp (hnode.symm.trans hnode')
  refine Classical.byContradiction fun hne => ?_
  apply Program.Before.irrefl (p := d.build)
  rcases pair_sublist_or hmem hmem' hne with hsub | hsub
  · exact h.before_of_children hid hnode hsub hleftOther hrightOther hother hother
  · exact h.before_of_children hid hnode hsub hrightOther hleftOther hother hother

end TreeShaped

end Draft

end LuaTypes
