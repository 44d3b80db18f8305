import LuaTypes.Proofs.Walks

/-!
Places of nodes. A node that a file reaches is placed below the node that it was reached from, in
the same file; where every node is reached once only, that is the one place it has.
-/

namespace LuaTypes

/-! Links from parents to children. -/

section

variable {p : Program} {room : Nat} {parent? : Option NodeId} {id : NodeId}

/-- A link leads to the first node, or to a child of a node that another link leads to. -/
theorem mem_preorderWithin {link : NodeId × Option NodeId}
    (h : link ∈ preorderWithin p.nodes room parent? id) :
    link = (id, parent?) ∨ ∃ above ∈ preorderWithin p.nodes room parent? id,
      link.2 = some above.1 ∧ p.HasChild above.1 link.1 := by
  induction room generalizing parent? id with
  | zero => simp [preorderWithin] at h
  | succ room ih =>
    simp only [preorderWithin] at h ⊢
    cases hnode : p.nodes[id]? with
    | none => simp [hnode] at h
    | some node =>
      simp only [hnode, List.mem_cons, List.mem_flatMap] at h ⊢
      rcases h with h | ⟨child, hchild, h⟩
      · exact .inl h
      · rcases ih h with rfl | ⟨above, habove, hlink, hbelow⟩
        · exact .inr ⟨(id, parent?), .inl rfl, rfl, node, hnode, hchild⟩
        · exact .inr ⟨above, .inr ⟨child, hchild, habove⟩, hlink, hbelow⟩

/-- The first link, where there is room for it. -/
theorem self_mem_preorderWithin (h : p.FitsBelow room id) (hnode : p.node? id ≠ none) :
    (id, parent?) ∈ preorderWithin p.nodes room parent? id := by
  cases room with
  | zero => exact absurd hnode h
  | succ room =>
    obtain ⟨node, hnode⟩ := Option.ne_none_iff_exists'.mp hnode
    have hget : p.nodes[id]? = some node := hnode
    simp [preorderWithin, hget]

/-- Whatever a link leads to, there are links to its children, where there is room for all. -/
theorem child_mem_preorderWithin (h : p.FitsBelow room id) {above : NodeId × Option NodeId}
    (habove : above ∈ preorderWithin p.nodes room parent? id) {child : NodeId}
    (hbelow : p.HasChild above.1 child) (hchild : p.node? child ≠ none) :
    (child, some above.1) ∈ preorderWithin p.nodes room parent? id := by
  induction room generalizing parent? id with
  | zero => simp [preorderWithin] at habove
  | succ room ih =>
    simp only [preorderWithin] at habove ⊢
    cases hnode : p.nodes[id]? with
    | none => simp [hnode] at habove
    | some node =>
      simp only [hnode, List.mem_cons, List.mem_flatMap] at habove ⊢
      rcases habove with rfl | ⟨c, hc, habove⟩
      · obtain ⟨node', hnode', hmem⟩ := hbelow
        obtain rfl : node = node' := Option.some_inj.mp (hnode.symm.trans hnode')
        exact .inr ⟨child, hmem, self_mem_preorderWithin (h.child hnode hmem) hchild⟩
      · exact .inr ⟨c, hc, ih (h.child hnode hc) habove⟩

end

/-! Places in a list. -/

section

variable {α : Type}

/-- Puts values at positions, one after the other. -/
def putAll (places : Array (Option α)) (entries : List (NodeId × α)) : Array (Option α) :=
  entries.foldl (fun places e => places.setIfInBounds e.1 (some e.2)) places

@[simp] theorem size_putAll (places : Array (Option α)) (entries : List (NodeId × α)) :
    (putAll places entries).size = places.size := by
  induction entries generalizing places with
  | nil => rfl
  | cons e entries ih => rw [putAll, List.foldl_cons, ← putAll, ih, Array.size_setIfInBounds]

/-- What stands at a position was there before, or was put there. -/
theorem mem_of_putAll {places : Array (Option α)} {entries : List (NodeId × α)} {id : NodeId}
    {a : α} (h : (putAll places entries)[id]? = some (some a)) :
    places[id]? = some (some a) ∨ (id, a) ∈ entries := by
  induction entries generalizing places with
  | nil => exact .inl h
  | cons e entries ih =>
    rw [putAll, List.foldl_cons, ← putAll] at h
    rcases ih h with h | h
    · rw [Array.getElem?_setIfInBounds] at h
      split at h
      · rename_i hid
        split at h
        · obtain rfl : e.2 = a := by simpa using h
          exact .inr (List.mem_cons.mpr (.inl (Prod.ext hid.symm rfl)))
        · simp at h
      · exact .inl h
    · exact .inr (List.mem_cons_of_mem _ h)

theorem putAll_of_notMem {places : Array (Option α)} {entries : List (NodeId × α)} {id : NodeId}
    (h : id ∉ entries.map Prod.fst) : (putAll places entries)[id]? = places[id]? := by
  induction entries generalizing places with
  | nil => rfl
  | cons e entries ih =>
    simp only [List.map_cons, List.mem_cons, not_or] at h
    rw [putAll, List.foldl_cons, ← putAll, ih h.2, Array.getElem?_setIfInBounds,
      if_neg (Ne.symm h.1)]

/-- What is put at a position once stays there. -/
theorem putAll_of_mem {places : Array (Option α)} {entries : List (NodeId × α)} {id : NodeId}
    {a : α} (hnodup : (entries.map Prod.fst).Nodup) (h : (id, a) ∈ entries)
    (hid : id < places.size) : (putAll places entries)[id]? = some (some a) := by
  induction entries generalizing places with
  | nil => simp at h
  | cons e entries ih =>
    rw [List.map_cons, List.nodup_cons] at hnodup
    rw [putAll, List.foldl_cons, ← putAll]
    rcases List.mem_cons.mp h with rfl | h
    · rw [putAll_of_notMem hnodup.1, Array.getElem?_setIfInBounds, if_pos rfl, if_pos hid]
    · exact ih hnodup.2 h (by rwa [Array.size_setIfInBounds])

end

/-! Places in a program. -/

namespace Draft

/-- Every node that a file reaches, with the place that it is given. -/
def placements (d : Draft) : List (NodeId × Place) :=
  d.files.toList.zipIdx.flatMap fun (f, file) =>
    (linksFrom d.nodes f.root).zipIdx.map fun ((id, parent?), offset) =>
      (id, ⟨file, parent?, offset⟩)

theorem build_places (d : Draft) :
    d.build.places = putAll (Array.replicate d.nodes.size none) d.placements := by
  rw [build, putAll, placements, List.foldl_flatMap]
  simp only [List.foldl_map]
  rfl

theorem mem_placements {d : Draft} {id : NodeId} {place : Place} :
    (id, place) ∈ d.placements ↔ ∃ f, d.files[place.file]? = some f ∧
      ((id, place.parent?), place.offset) ∈ (linksFrom d.nodes f.root).zipIdx := by
  obtain ⟨file, parent?, offset⟩ := place
  simp only [placements, List.mem_flatMap, List.mem_map, Prod.exists, Prod.mk.injEq,
    Place.mk.injEq, List.mem_zipIdx_iff_getElem?, Array.getElem?_toList]
  constructor
  · rintro ⟨f, _, hfile, _, _, _, hlink, rfl, rfl, rfl, rfl⟩
    exact ⟨f, hfile, hlink⟩
  · rintro ⟨f, hfile, hlink⟩
    exact ⟨f, file, hfile, id, parent?, offset, hlink, rfl, rfl, rfl, rfl⟩

theorem mem_placements_of_place? {d : Draft} {id : NodeId} {place : Place}
    (h : d.build.place? id = some place) : (id, place) ∈ d.placements := by
  rw [Program.place?, build_places, Option.join_eq_some_iff] at h
  refine (mem_of_putAll h).resolve_left fun h => ?_
  rw [Array.getElem?_replicate] at h
  split at h <;> simp at h

theorem node?_of_place? {d : Draft} {id : NodeId} {place : Place}
    (h : d.build.place? id = some place) : d.build.node? id ≠ none := by
  rw [Program.place?, build_places, Option.join_eq_some_iff] at h
  have hlt := (Array.getElem?_eq_some_iff.mp h).1
  rw [size_putAll, Array.size_replicate] at hlt
  simpa [Program.node?, build] using hlt

/-- A place comes from a link. -/
theorem link_of_place? {d : Draft} {id : NodeId} {place : Place}
    (h : d.build.place? id = some place) :
    ∃ f, d.files[place.file]? = some f ∧ (id, place.parent?) ∈ linksFrom d.nodes f.root := by
  obtain ⟨f, hfile, hlink⟩ := mem_placements.mp (mem_placements_of_place? h)
  exact ⟨f, hfile, List.mem_of_getElem? (List.mem_zipIdx_iff_getElem?.mp hlink)⟩

/-- The parent of a node has it as a child. -/
theorem hasChild_of_parent? {d : Draft} {id parent : NodeId}
    (h : d.build.parent? id = some parent) : d.build.HasChild parent id := by
  obtain ⟨place, hplace, hparent⟩ := Option.bind_eq_some_iff.mp h
  obtain ⟨f, -, hlink⟩ := link_of_place? hplace
  rw [hparent] at hlink
  rcases mem_preorderWithin (p := d.build) hlink with h | ⟨above, -, habove, hbelow⟩
  · simp at h
  · obtain rfl : parent = above.1 := Option.some_inj.mp habove
    exact hbelow

/-- No node is its own descendant, and the files reach no node twice. -/
structure TreeShaped (d : Draft) : Prop where
  acyclic : d.build.Acyclic
  nodup : (d.placements.map Prod.fst).Nodup

/-- The place of a node is that of the link to it. -/
theorem TreeShaped.place?_of_getElem? {d : Draft} (h : d.TreeShaped) {file : FileId}
    {f : DraftFile} (hfile : d.files[file]? = some f) {offset : Nat} {id : NodeId}
    {parent? : Option NodeId} (hlink : (linksFrom d.nodes f.root)[offset]? = some (id, parent?))
    (hnode : d.build.node? id ≠ none) : d.build.place? id = some ⟨file, parent?, offset⟩ := by
  have hmem : (id, ⟨file, parent?, offset⟩) ∈ d.placements :=
    mem_placements.mpr ⟨f, hfile, List.mem_zipIdx_iff_getElem?.mpr hlink⟩
  have hid : id < (Array.replicate d.nodes.size (none : Option Place)).size := by
    rw [Array.size_replicate]
    exact Program.node?_lt hnode
  rw [Program.place?, build_places, putAll_of_mem h.nodup hmem hid]
  rfl

theorem TreeShaped.place?_of_link {d : Draft} (h : d.TreeShaped) {file : FileId} {f : DraftFile}
    (hfile : d.files[file]? = some f) {id : NodeId} {parent? : Option NodeId}
    (hlink : (id, parent?) ∈ linksFrom d.nodes f.root) (hnode : d.build.node? id ≠ none) :
    ∃ offset, d.build.place? id = some ⟨file, parent?, offset⟩ := by
  obtain ⟨offset, hoffset⟩ := List.mem_iff_getElem?.mp hlink
  exact ⟨offset, h.place?_of_getElem? hfile hoffset hnode⟩

/-- The children of a placed node are placed below it, in its file. -/
theorem TreeShaped.place?_child {d : Draft} (h : d.TreeShaped) {id : NodeId} {place : Place}
    (hplace : d.build.place? id = some place) {child : NodeId} (hbelow : d.build.HasChild id child)
    (hchild : d.build.node? child ≠ none) :
    ∃ offset, d.build.place? child = some ⟨place.file, some id, offset⟩ := by
  obtain ⟨f, hfile, hlink⟩ := link_of_place? hplace
  have hfits := h.acyclic.fitsBelow f.root
  exact h.place?_of_link hfile (child_mem_preorderWithin hfits hlink hbelow hchild) hchild

/-! Walks up. -/

theorem parent?_lt {d : Draft} {id : NodeId} (h : d.build.parent? id ≠ none) :
    id < d.build.nodes.size := by
  refine Nat.lt_of_not_le fun hle => h ?_
  have hplaces : d.build.places[id]? = none := by
    rw [build_places, Array.getElem?_eq_none_iff, size_putAll, Array.size_replicate]
    exact hle
  simp [Program.parent?, Program.place?, hplaces]

theorem descends_of_ancestor {d : Draft} {id above : NodeId}
    (h : Relation.TransGen (fun a b => d.build.parent? a = some b) id above) :
    Relation.TransGen d.build.HasChild above id := by
  induction h with
  | single h => exact .single (hasChild_of_parent? h)
  | tail _ h ih => exact .trans (.single (hasChild_of_parent? h)) ih

/-- Going up along `room` parents leads out of the program. -/
def FitsAbove (d : Draft) : Nat → NodeId → Prop :=
  Fits (fun id => d.build.parent? id ≠ none) fun a b => d.build.parent? a = some b

theorem fitsAbove {d : Draft} (h : d.build.Acyclic) (id : NodeId) :
    d.FitsAbove d.build.nodes.size id :=
  fits (fun _ => parent?_lt) (fun a b hab => by rw [hab]; simp)
    (fun a ha => h a (descends_of_ancestor ha)) id

theorem ancestorsWithin_add {d : Draft} {room : Nat} {id : NodeId} (h : d.FitsAbove room id)
    (extra : Nat) : d.build.ancestorsWithin (room + extra) id = d.build.ancestorsWithin room id := by
  induction room generalizing id with
  | zero =>
    have hparent : d.build.parent? id = none := Classical.not_not.mp h
    cases extra with
    | zero => rfl
    | succ extra => simp [Program.ancestorsWithin, hparent]
  | succ room ih =>
    rw [Nat.add_right_comm]
    simp only [Program.ancestorsWithin]
    cases hparent : d.build.parent? id with
    | none => rfl
    | some parent => simp only [ih (h parent hparent)]

end Draft

end LuaTypes
