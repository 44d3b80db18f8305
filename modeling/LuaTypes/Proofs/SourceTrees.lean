import Mathlib.Data.List.Sigma
import LuaTypes.Proofs.Resolution

/-!
Source trees. If every node is listed once at most, among the children of one node or as the root of
one file, and none is its own descendant, then what each file reaches is a tree. Its nodes are
numbered in source order, and the way up from each of them leads to the root of the file.
-/

namespace LuaTypes

namespace Program

variable {p : Program}

/-- These are the nodes from a node on in source order: the node itself, and then those from its
children on, one child after the other. A position without a node is passed over. -/
inductive InOrder (p : Program) : NodeId → List NodeId → Prop
  | missing {id : NodeId} : p.node? id = none → InOrder p id []
  | node {id : NodeId} {node : Node} {below : NodeId → List NodeId} : p.node? id = some node →
    (∀ child ∈ node.children, InOrder p child (below child)) →
    InOrder p id (id :: node.children.flatMap below)

/-- A walk with a stack of links, the top first, takes these links until the stack is empty. A link
that leads to a node is taken, and links to the children of the node are put in its place. -/
inductive Drains (p : Program) :
    List (NodeId × Option NodeId) → List (NodeId × Option NodeId) → Prop
  | done : Drains p [] []
  | missing {link : NodeId × Option NodeId} {stack taken : List (NodeId × Option NodeId)} :
    p.node? link.1 = none → Drains p stack taken → Drains p (link :: stack) taken
  | node {link : NodeId × Option NodeId} {stack taken : List (NodeId × Option NodeId)}
    {node : Node} : p.node? link.1 = some node →
    Drains p (node.children.map (·, some link.1) ++ stack) taken →
    Drains p (link :: stack) (link :: taken)

/-- The second node is the parent of the first one, in the same file and before it. -/
structure Rises (p : Program) (id above : NodeId) : Prop where
  parent : p.parent? id = some above
  file : p.fileOf? above = p.fileOf? id
  offset : p.offset above < p.offset id

/-- What the file reaches is a tree, with the nodes numbered in source order. -/
structure SourceTree (p : Program) (f : SourceFile) : Prop where
  inOrder : p.InOrder f.root (p.preorder f)
  drains : ∃ links, p.Drains [(f.root, none)] links ∧ links.map Prod.fst = p.preorder f ∧
    ∀ (offset : Nat) (id : NodeId) (parent? : Option NodeId),
      links[offset]? = some (id, parent?) ↔ p.place? id = some ⟨f.id, parent?, offset⟩
  offsets (offset : Nat) (id : NodeId) :
    (p.preorder f)[offset]? = some id ↔ p.fileOf? id = some f ∧ p.offset id = offset
  root : p.parent? f.root = none
  parent (id : NodeId) : p.fileOf? id = some f → id ≠ f.root →
    ∃ above, p.parent? id = some above ∧ ∀ other, p.HasChild other id ↔ other = above
  ancestors (id : NodeId) : p.fileOf? id = some f →
    (id :: p.ancestors id).IsChain p.Rises ∧ (id :: p.ancestors id).getLast? = some f.root

/-! What a walk down takes. -/

section

variable {room : Nat} {parent? : Option NodeId} {id : NodeId}

theorem inOrder_preorderWithin (h : p.FitsBelow room id) :
    p.InOrder id ((preorderWithin p.nodes room parent? id).map Prod.fst) := by
  induction room generalizing parent? id with
  | zero => exact .missing (Classical.not_not.mp h)
  | succ room ih =>
    rw [preorderWithin]
    cases hnode : p.nodes[id]? with
    | none => exact .missing hnode
    | some node =>
      simp only [List.map_cons, List.map_flatMap]
      exact .node hnode fun child hchild => ih (h.child hnode hchild)

theorem drains_preorderWithin (h : p.FitsBelow room id)
    {stack taken : List (NodeId × Option NodeId)} (hstack : p.Drains stack taken) :
    p.Drains ((id, parent?) :: stack) (preorderWithin p.nodes room parent? id ++ taken) := by
  induction room generalizing parent? id stack taken with
  | zero => exact .missing (Classical.not_not.mp h) hstack
  | succ room ih =>
    rw [preorderWithin]
    cases hnode : p.nodes[id]? with
    | none => exact .missing hnode hstack
    | some node =>
      have hall (children : List NodeId) (hchildren : ∀ c ∈ children, p.FitsBelow room c) :
          p.Drains (children.map (·, some id) ++ stack)
            (children.flatMap (preorderWithin p.nodes room (some id)) ++ taken) := by
        induction children with
        | nil => exact hstack
        | cons child rest ihrest =>
          obtain ⟨hchild, hrest⟩ := List.forall_mem_cons.mp hchildren
          rw [List.flatMap_cons, List.append_assoc]
          exact ih hchild (ihrest hrest)
      exact .node hnode (hall node.children fun child hchild => h.child hnode hchild)

theorem node?_of_mem_preorderWithin {link : NodeId × Option NodeId}
    (h : link ∈ preorderWithin p.nodes room parent? id) : p.node? link.1 ≠ none := by
  induction room generalizing parent? id with
  | zero => cases h
  | succ room ih =>
    rw [preorderWithin] at h
    cases hnode : p.nodes[id]? with
    | none => simp [hnode] at h
    | some node =>
      simp only [hnode, List.mem_cons, List.mem_flatMap] at h
      rcases h with rfl | ⟨child, -, h⟩
      · simp [node?, hnode]
      · exact ih h

theorem node?_of_contains {other : NodeId} (h : p.Contains id other)
    (hother : p.node? other ≠ none) : p.node? id ≠ none := by
  rcases Relation.ReflTransGen.cases_head h with rfl | ⟨child, hchild, -⟩
  · exact hother
  · exact node?_of_hasChild hchild

end

end Program

/-! Nodes that are listed once. -/

/-- Of two positions in a list, what the first one gives comes before what the second one gives. -/
theorem pair_sublist_flatMap {α β : Type} {l : List α} {f : α → List β} {i j : Nat} {x y : α}
    {u v : β} (hx : l[i]? = some x) (hy : l[j]? = some y) (hlt : i < j) (hu : u ∈ f x)
    (hv : v ∈ f y) : [u, v].Sublist (l.flatMap f) := by
  have hx' : x ∈ l.take j := List.mem_of_getElem? ((List.getElem?_take_of_lt hlt).trans hx)
  have hy' : y ∈ l.drop j := List.mem_of_getElem? (i := 0) (by rw [List.getElem?_drop]; exact hy)
  rw [← List.take_append_drop j l, List.flatMap_append]
  exact (List.singleton_sublist.mpr (List.mem_flatMap.mpr ⟨x, hx', hu⟩)).append
    (List.singleton_sublist.mpr (List.mem_flatMap.mpr ⟨y, hy', hv⟩))

namespace Draft

open Program (Contains HasChild Reached)

/-- All the lists of children, and the roots of the files. -/
def mentions (d : Draft) : List NodeId :=
  d.nodes.toList.flatMap Node.children ++ d.files.toList.map (·.root)

/-- No node is its own descendant, and each is listed once at most. -/
structure Unshared (d : Draft) : Prop where
  acyclic : d.build.Acyclic
  once : ∀ id, d.build.node? id ≠ none → d.mentions.count id ≤ 1

variable {d : Draft}

theorem getElem?_of_node? {id : NodeId} {node : Node} (h : d.build.node? id = some node) :
    d.nodes.toList[id]? = some node := by
  rw [Array.getElem?_toList]
  exact h

theorem mem_children_of_hasChild {a child : NodeId} (h : d.build.HasChild a child) :
    child ∈ d.nodes.toList.flatMap Node.children := by
  obtain ⟨node, hnode, hmem⟩ := h
  exact List.mem_flatMap.mpr ⟨node, List.mem_of_getElem? (getElem?_of_node? hnode), hmem⟩

namespace Unshared

variable (h : d.Unshared)

include h

/-- A node that is listed is not listed again. -/
theorem not_twice {id : NodeId} (hid : d.build.node? id ≠ none) :
    ¬[id, id].Sublist d.mentions := fun htwice => by
  have hcount := htwice.count_le id
  have honce := h.once id hid
  simp at hcount
  omega

theorem parent_unique {a b child : NodeId} (ha : d.build.HasChild a child)
    (hb : d.build.HasChild b child) (hchild : d.build.node? child ≠ none) : a = b := by
  have hnot {a b : NodeId} (ha : d.build.HasChild a child) (hb : d.build.HasChild b child)
      (hlt : a < b) : False := by
    obtain ⟨node, hnode, hmem⟩ := ha
    obtain ⟨node', hnode', hmem'⟩ := hb
    have htwice := pair_sublist_flatMap (getElem?_of_node? hnode) (getElem?_of_node? hnode') hlt
      hmem hmem'
    exact h.not_twice hchild (htwice.trans (List.sublist_append_left _ _))
  rcases Nat.lt_trichotomy a b with hlt | heq | hlt
  · exact (hnot ha hb hlt).elim
  · exact heq
  · exact (hnot hb ha hlt).elim

theorem not_child_of_root {file : FileId} {f : DraftFile} (hfile : d.files[file]? = some f)
    (hroot : d.build.node? f.root ≠ none) (a : NodeId) : ¬d.build.HasChild a f.root := fun ha => by
  have hmem : f.root ∈ d.files.toList.map (·.root) :=
    List.mem_map_of_mem (List.mem_of_getElem? (by rwa [Array.getElem?_toList]))
  exact h.not_twice hroot ((List.singleton_sublist.mpr (mem_children_of_hasChild ha)).append
    (List.singleton_sublist.mpr hmem))

/-- Of two nodes around a node, one contains the other. -/
theorem contains_total {a b id : NodeId} (ha : d.build.Contains a id) (hb : d.build.Contains b id)
    (hid : d.build.node? id ≠ none) : d.build.Contains a b ∨ d.build.Contains b a := by
  induction ha with
  | refl => exact .inr hb
  | @tail parent id habove hchild ih =>
    rcases Relation.ReflTransGen.cases_tail hb with rfl | ⟨parent', hb', hchild'⟩
    · exact .inl (habove.tail hchild)
    · obtain rfl := h.parent_unique hchild hchild' hid
      exact ih hb' (Program.node?_of_hasChild hchild)

/-- The children of a node have nothing below them in common. -/
theorem sibling_eq {a left right id : NodeId} (hleft : d.build.HasChild a left)
    (hright : d.build.HasChild a right) (hleftId : d.build.Contains left id)
    (hrightId : d.build.Contains right id) (hid : d.build.node? id ≠ none) : left = right := by
  have hwithin {left right : NodeId} (hleft : d.build.HasChild a left)
      (hright : d.build.HasChild a right) (hnode : d.build.node? right ≠ none)
      (hcontains : d.build.Contains left right) : left = right := by
    rcases Relation.ReflTransGen.cases_tail hcontains with heq | ⟨parent, habove, hchild⟩
    · exact heq.symm
    · obtain rfl := h.parent_unique hright hchild hnode
      exact absurd (Relation.TransGen.head' hleft habove) (h.acyclic a)
  rcases h.contains_total hleftId hrightId hid with hcontains | hcontains
  · exact hwithin hleft hright (Program.node?_of_contains hrightId hid) hcontains
  · exact (hwithin hright hleft (Program.node?_of_contains hleftId hid) hcontains).symm

theorem root_unique {i j : FileId} {f g : DraftFile} (hf : d.files[i]? = some f)
    (hg : d.files[j]? = some g) (hroots : f.root = g.root) (hroot : d.build.node? f.root ≠ none) :
    i = j := by
  have hnot {i j : FileId} {f g : DraftFile} (hf : d.files[i]? = some f)
      (hg : d.files[j]? = some g) (hroots : f.root = g.root)
      (hroot : d.build.node? f.root ≠ none) (hlt : i < j) : False := by
    have htwice := pair_sublist_flatMap (f := fun f : DraftFile => [f.root])
      ((Array.getElem?_toList ..).trans hf) ((Array.getElem?_toList ..).trans hg) hlt
      (List.mem_singleton_self f.root) (List.mem_singleton.mpr hroots)
    rw [← List.map_eq_flatMap] at htwice
    exact h.not_twice hroot (htwice.trans (List.sublist_append_right _ _))
  rcases Nat.lt_trichotomy i j with hlt | heq | hlt
  · exact (hnot hf hg hroots hroot hlt).elim
  · exact heq
  · exact (hnot hg hf hroots.symm (hroots ▸ hroot) hlt).elim

/-- What one file reaches no other file reaches. -/
theorem file_eq {i j : FileId} {f g : DraftFile} (hf : d.files[i]? = some f)
    (hg : d.files[j]? = some g) {id : NodeId} (hfid : d.build.Contains f.root id)
    (hgid : d.build.Contains g.root id) (hid : d.build.node? id ≠ none) : i = j := by
  have hwithin {i j : FileId} {f g : DraftFile} (hf : d.files[i]? = some f)
      (hg : d.files[j]? = some g) (hroot : d.build.node? g.root ≠ none)
      (hcontains : d.build.Contains f.root g.root) : i = j := by
    rcases Relation.ReflTransGen.cases_tail hcontains with heq | ⟨parent, -, hchild⟩
    · exact h.root_unique hf hg heq.symm (heq ▸ hroot)
    · exact absurd hchild (h.not_child_of_root hg hroot parent)
  rcases h.contains_total hfid hgid hid with hcontains | hcontains
  · exact hwithin hf hg (Program.node?_of_contains hgid hid) hcontains
  · exact (hwithin hg hf (Program.node?_of_contains hfid hid) hcontains).symm

/-- No two links of a walk down lead to one node. -/
theorem nodup_preorderWithin (room : Nat) (parent? : Option NodeId) (id : NodeId) :
    ((preorderWithin d.nodes room parent? id).map Prod.fst).Nodup := by
  induction room generalizing parent? id with
  | zero => exact List.nodup_nil
  | succ room ih =>
    rw [preorderWithin]
    cases hnode : d.nodes[id]? with
    | none => exact List.nodup_nil
    | some node =>
      have hbelow {child other : NodeId}
          (hother : other ∈ (preorderWithin d.nodes room (some id) child).map Prod.fst) :
          d.build.Contains child other ∧ d.build.node? other ≠ none := by
        obtain ⟨link, hlink, rfl⟩ := List.mem_map.mp hother
        exact ⟨Program.contains_of_mem_preorderWithin (p := d.build) hlink,
          Program.node?_of_mem_preorderWithin (p := d.build) hlink⟩
      simp only [List.map_cons, List.map_flatMap]
      refine List.nodup_cons.mpr ⟨fun hself => ?_, List.nodup_flatMap.mpr ⟨fun c _ => ih _ c, ?_⟩⟩
      · obtain ⟨child, hchild, hself⟩ := List.mem_flatMap.mp hself
        exact h.acyclic id (.head' ⟨node, hnode, hchild⟩ (hbelow hself).1)
      · refine List.pairwise_iff_forall_sublist.mpr fun {left right} hpair other hleft hright => ?_
        obtain ⟨hleftOther, hother⟩ := hbelow hleft
        obtain ⟨hrightOther, -⟩ := hbelow hright
        have heq : left = right :=
          h.sibling_eq ⟨node, hnode, hpair.subset (by simp)⟩ ⟨node, hnode, hpair.subset (by simp)⟩
            hleftOther hrightOther hother
        have hchildren : node.children.Sublist d.mentions := by
          refine List.Sublist.trans ?_ (List.sublist_append_left _ _)
          have hmem : node ∈ d.nodes.toList := List.mem_of_getElem? (getElem?_of_node? hnode)
          exact List.sublist_flatten_of_mem (List.mem_map_of_mem hmem)
        exact h.not_twice (Program.node?_of_contains hleftOther hother)
          ((heq.symm ▸ hpair).trans hchildren)

/-- The files reach no node twice. -/
theorem treeShaped : d.TreeShaped := by
  refine ⟨h.acyclic, ?_⟩
  have hids : d.placements.map Prod.fst = d.files.toList.zipIdx.flatMap fun f =>
      (linksFrom d.nodes f.1.root).map Prod.fst := by
    rw [placements, List.map_flatMap]
    refine congrArg (List.flatMap · _) (funext fun f => ?_)
    rw [List.map_map]
    change (linksFrom d.nodes f.1.root).zipIdx.map (Prod.fst ∘ Prod.fst) = _
    rw [← List.map_map, List.zipIdx_map_fst]
  rw [hids]
  refine List.nodup_flatMap.mpr ⟨fun f _ => h.nodup_preorderWithin _ _ _, ?_⟩
  refine List.pairwise_iff_forall_sublist.mpr fun {f g} hpair id hf hg => ?_
  obtain ⟨link, hlink, rfl⟩ := List.mem_map.mp hf
  obtain ⟨link', hlink', heq⟩ := List.mem_map.mp hg
  have hnode := Program.node?_of_mem_preorderWithin (p := d.build) hlink
  have hreached := Program.contains_of_mem_preorderWithin (p := d.build) hlink
  have hreached' := Program.contains_of_mem_preorderWithin (p := d.build) hlink'
  have hmem (e : DraftFile × FileId) (he : e ∈ [f, g]) : d.files[e.2]? = some e.1 := by
    have hzip := List.mem_zipIdx_iff_getElem?.mp (hpair.subset he)
    rwa [Array.getElem?_toList] at hzip
  have hindex : f.2 = g.2 :=
    h.file_eq (hmem f (by simp)) (hmem g (by simp)) hreached (heq ▸ hreached') hnode
  have hnodup := (hpair.map Prod.snd).nodup (List.nodup_zipIdx_map_snd d.files.toList)
  simp [hindex] at hnodup

end Unshared

/-! Files of a program. -/

theorem getElem?_files {file : FileId} {f : SourceFile} : d.build.files[file]? = some f ↔
    ∃ g, d.files[file]? = some g ∧ f = ⟨file, g.path, g.root, g.stdLib⟩ := by
  rw [build, Array.getElem?_mapIdx, Option.map_eq_some_iff]
  exact exists_congr fun g => and_congr_right fun _ => eq_comm

theorem fileOf?_eq_some {id : NodeId} {f : SourceFile} : d.build.fileOf? id = some f ↔
    ∃ place, d.build.place? id = some place ∧ d.build.files[place.file]? = some f :=
  Option.bind_eq_some_iff

theorem place?_of_fileOf? {id : NodeId} {f : SourceFile} (h : d.build.fileOf? id = some f) :
    ∃ parent?, d.build.place? id = some ⟨f.id, parent?, d.build.offset id⟩ := by
  obtain ⟨place, hplace, hfile⟩ := fileOf?_eq_some.mp h
  obtain ⟨g, -, rfl⟩ := getElem?_files.mp hfile
  exact ⟨place.parent?, by simp [Program.offset, hplace]⟩

theorem fileOf?_of_place? {id : NodeId} {place : Place} (h : d.build.place? id = some place) :
    ∃ f, d.build.fileOf? id = some f ∧ d.build.files[place.file]? = some f := by
  obtain ⟨g, hg, -⟩ := link_of_place? h
  have hfile := getElem?_files.mpr ⟨g, hg, rfl⟩
  exact ⟨_, fileOf?_eq_some.mpr ⟨place, h, hfile⟩, hfile⟩

namespace TreeShaped

variable (h : d.TreeShaped)

include h

theorem getElem?_links_iff {file : FileId} {f : DraftFile} (hfile : d.files[file]? = some f)
    (offset : Nat) (id : NodeId) (parent? : Option NodeId) :
    (linksFrom d.nodes f.root)[offset]? = some (id, parent?) ↔
      d.build.place? id = some ⟨file, parent?, offset⟩ := by
  constructor
  · intro hlink
    exact h.place?_of_getElem? hfile hlink
      (Program.node?_of_mem_preorderWithin (p := d.build) (List.mem_of_getElem? hlink))
  · intro hplace
    obtain ⟨g, hg, hlink⟩ := mem_placements.mp (mem_placements_of_place? hplace)
    obtain rfl : f = g := Option.some_inj.mp (hfile.symm.trans hg)
    exact List.mem_zipIdx_iff_getElem?.mp hlink

theorem parent?_root {file : FileId} {f : DraftFile} (hfile : d.files[file]? = some f) :
    d.build.parent? f.root = none := by
  cases hplace : d.build.place? f.root with
  | none => simp [Program.parent?, hplace]
  | some place =>
    have hlink : (f.root, none) ∈ linksFrom d.nodes f.root :=
      self_mem_preorderWithin (h.acyclic.fitsBelow f.root) (node?_of_place? hplace)
    obtain ⟨offset, hroot⟩ := h.place?_of_link hfile hlink (node?_of_place? hplace)
    simp [Program.parent?, hroot]

/-- A node of a file is its root, or a child of the parent that it has. -/
theorem root_or_child {id : NodeId} {f : SourceFile} (hfile : d.build.fileOf? id = some f) :
    id = f.root ∧ d.build.parent? id = none ∨
      ∃ above, d.build.parent? id = some above ∧ d.build.HasChild above id := by
  obtain ⟨place, hplace, hfile⟩ := fileOf?_eq_some.mp hfile
  obtain ⟨g, hg, rfl⟩ := getElem?_files.mp hfile
  have hparent : d.build.parent? id = place.parent? := by rw [Program.parent?, hplace]; rfl
  have hlink := List.mem_of_getElem? ((h.getElem?_links_iff hg _ _ _).mpr hplace)
  rcases mem_preorderWithin (p := d.build) hlink with heq | ⟨above, -, habove, hchild⟩
  · obtain ⟨rfl, hnone⟩ := Prod.mk.inj heq
    exact .inl ⟨rfl, hparent.trans hnone⟩
  · exact .inr ⟨above.1, hparent.trans habove, hchild⟩

/-- A step up leads to a node before, in the same file. -/
theorem rises_of_parent? {id above : NodeId} (hparent : d.build.parent? id = some above) :
    d.build.Rises id above := by
  obtain ⟨place, placeAbove, hplace, habove, hfile⟩ := h.place?_parent hparent
  have hbefore := h.before_child (reached_of_place? habove) (hasChild_of_parent? hparent)
    (node?_of_place? hplace)
  obtain ⟨a, b, ha, hb, -, hlt⟩ := hbefore
  refine ⟨hparent, ?_, ?_⟩
  · simp [Program.fileOf?, hplace, habove, hfile]
  · simpa [Program.offset, ha, hb] using hlt

/-- The way up from a node in a file rises to the root of the file. -/
theorem ancestors_rise (id : NodeId) {f : SourceFile} (hfile : d.build.fileOf? id = some f) :
    (id :: d.build.ancestors id).IsChain d.build.Rises ∧
      (id :: d.build.ancestors id).getLast? = some f.root := by
  induction id using induction_up h.acyclic with
  | step id ih =>
    rw [ancestors_eq h.acyclic]
    cases hparent : d.build.parent? id with
    | none =>
      rcases h.root_or_child hfile with ⟨rfl, -⟩ | ⟨above, habove, -⟩
      · exact ⟨.singleton _, rfl⟩
      · rw [hparent] at habove
        cases habove
    | some above =>
      have hrises := h.rises_of_parent? hparent
      obtain ⟨hchain, hlast⟩ := ih above hparent (hrises.file.trans hfile)
      rw [Option.elim_some]
      exact ⟨List.isChain_cons_cons.mpr ⟨hrises, hchain⟩, by rw [List.getLast?_cons_cons, hlast]⟩

/-- The node at an offset of a file is the one in this place in source order. -/
theorem getElem?_preorder_iff {f : SourceFile} (hfile : d.build.files[f.id]? = some f)
    (offset : Nat) (id : NodeId) : (d.build.preorder f)[offset]? = some id ↔
      d.build.fileOf? id = some f ∧ d.build.offset id = offset := by
  obtain ⟨g, hg, hf⟩ := getElem?_files.mp hfile
  have hroot : g.root = f.root := by rw [hf]
  have hpreorder : (d.build.preorder f)[offset]? = some id ↔
      ∃ parent?, d.build.place? id = some ⟨f.id, parent?, offset⟩ := by
    simp only [← h.getElem?_links_iff hg, hroot, Program.preorder, List.getElem?_map,
      Option.map_eq_some_iff, Prod.exists, exists_and_right, exists_eq_right]
    rfl
  rw [hpreorder]
  constructor
  · rintro ⟨parent?, hplace⟩
    exact ⟨fileOf?_eq_some.mpr ⟨_, hplace, hfile⟩, by simp [Program.offset, hplace]⟩
  · rintro ⟨hid, rfl⟩
    exact place?_of_fileOf? hid

end TreeShaped

/-- If every node is listed once at most and none is its own descendant, then every file is a source
tree: its nodes are numbered in source order, every node but the root has the one node as its parent
that it is a child of, and the way up from a node leads with falling offsets to the root. The files
have just the nodes that can be reached from their roots, and any other node has neither a file nor
a parent. -/
theorem Unshared.sourceTrees (h : d.Unshared) :
    (∀ (file : FileId) (f : SourceFile), d.build.files[file]? = some f → d.build.SourceTree f) ∧
    ∀ id, (d.build.fileOf? id ≠ none ↔ d.build.Reached id ∧ d.build.node? id ≠ none) ∧
      (¬d.build.Reached id → d.build.fileOf? id = none ∧ d.build.parent? id = none ∧
        d.build.ancestors id = []) := by
  have htree := h.treeShaped
  have hplaced (id : NodeId) :
      d.build.fileOf? id ≠ none ↔ d.build.Reached id ∧ d.build.node? id ≠ none := by
    constructor
    · intro hfile
      obtain ⟨f, hfile⟩ := Option.ne_none_iff_exists'.mp hfile
      obtain ⟨place, hplace, -⟩ := fileOf?_eq_some.mp hfile
      exact ⟨reached_of_place? hplace, node?_of_place? hplace⟩
    · rintro ⟨hreached, hnode⟩
      obtain ⟨place, hplace⟩ := htree.place?_of_reached hreached hnode
      obtain ⟨f, hfile, -⟩ := fileOf?_of_place? hplace
      simp [hfile]
  refine ⟨fun file f hfile => ?_, fun id => ⟨hplaced id, fun hreached => ?_⟩⟩
  · obtain ⟨g, hg, rfl⟩ := getElem?_files.mp hfile
    have hfits := h.acyclic.fitsBelow g.root
    have hdrains : d.build.Drains [(g.root, none)] (linksFrom d.nodes g.root) := by
      have hdrains := @Program.drains_preorderWithin d.build _ none _ hfits [] [] .done
      rwa [List.append_nil] at hdrains
    exact {
      inOrder := Program.inOrder_preorderWithin hfits
      drains := ⟨_, hdrains, rfl, htree.getElem?_links_iff hg⟩
      offsets := htree.getElem?_preorder_iff hfile
      root := htree.parent?_root hg
      parent := fun id hid hroot => by
        rcases htree.root_or_child hid with ⟨hself, -⟩ | ⟨above, hparent, hchild⟩
        · exact absurd hself hroot
        · obtain ⟨place, hplace, -⟩ := fileOf?_eq_some.mp hid
          refine ⟨above, hparent, fun other => ⟨fun hother => ?_, fun heq => heq ▸ hchild⟩⟩
          exact h.parent_unique hother hchild (node?_of_place? hplace)
      ancestors := fun id hid => htree.ancestors_rise id hid }
  · have hplace : d.build.place? id = none := by
      by_contra hplace
      obtain ⟨place, hplace⟩ := Option.ne_none_iff_exists'.mp hplace
      exact hreached (reached_of_place? hplace)
    have hparent : d.build.parent? id = none := by simp [Program.parent?, hplace]
    refine ⟨by simp [Program.fileOf?, hplace], hparent, ?_⟩
    rw [ancestors_eq h.acyclic, hparent]
    rfl

/-- The files `local x = 1 return x` and `f()`, and a number that is in neither. -/
def twoFiles : Draft where
  nodes := #[.literal (.number "1"), .nameDef "x", .localDef [1] [0], .nameRef "x", .ret [3],
    .block [2, 4], .nameRef "f", .call 6 [], .exprStat 7, .block [8], .literal (.number "7")]
  files := #[⟨"main.lua", 5, false⟩, ⟨"other.lua", 9, false⟩]

theorem unshared_twoFiles : twoFiles.Unshared where
  acyclic := Program.Acyclic.of_descending (by decide)
  once := fun id hid =>
    (by decide : ∀ id < 11, twoFiles.mentions.count id ≤ 1) id (Program.node?_lt hid)

/-- The number has no file, and the way up from the use of `x` leads to the root. -/
theorem Unshared.sourceTrees_twoFiles :
    twoFiles.Unshared ∧ twoFiles.build.SourceTree ⟨0, "main.lua", 5, false⟩ ∧
    twoFiles.build.SourceTree ⟨1, "other.lua", 9, false⟩ ∧
    ((3 :: twoFiles.build.ancestors 3).getLast? = some 5) ∧
    ¬twoFiles.build.Reached 10 ∧ twoFiles.build.parent? 10 = none := by
  obtain ⟨htrees, hplaced⟩ := sourceTrees unshared_twoFiles
  obtain ⟨hiff, hdetached⟩ := hplaced 10
  have hmain := htrees 0 ⟨0, "main.lua", 5, false⟩ rfl
  have hreached : ¬twoFiles.build.Reached 10 := fun hreached =>
    hiff.mpr ⟨hreached, by decide⟩ (by decide)
  exact ⟨unshared_twoFiles, hmain, htrees 1 _ rfl, (hmain.ancestors 3 (by decide)).2, hreached,
    (hdetached hreached).2.1⟩

end Draft

end LuaTypes
