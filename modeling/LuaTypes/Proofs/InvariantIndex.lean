import LuaTypes.Proofs.Filed
import LuaTypes.Proofs.InvariantNodes

/-!
The index of a program holds no other types than those in its comments, so it keeps every invariant
that the comments keep, and so do requests against it.
-/

namespace LuaTypes

namespace Collecting

variable {p : Program} {file : SourceFile} {d : MemberDecl}

theorem documented?_of_targetMember? {tagged : Std.HashMap String String} {target : NodeId}
    (hd : targetMember? p file tagged target = some d) : d.documented? = none := by
  unfold targetMember? at hd
  split at hd
  · obtain ⟨cls, -, rfl⟩ := Option.map_eq_some_iff.mp hd
    rfl
  · obtain ⟨name, -, rfl⟩ := Option.map_eq_some_iff.mp hd
    rfl

/-- Only a comment on a class documents members. -/
theorem documented?_of_nodeMembers {tagged : Std.HashMap String String} {id : NodeId}
    (hd : d ∈ nodeMembers p file tagged id) : d.documented? = none := by
  have htable {values : List NodeId} (hd : d ∈ tableMembers p file id values) :
      d.documented? = none := by
    unfold tableMembers at hd
    split at hd
    · obtain ⟨field, -, rfl⟩ := List.mem_map.mp hd
      rfl
    · cases hd
  unfold nodeMembers at hd
  split at hd
  · obtain ⟨cls, -, rfl⟩ := Option.map_eq_some_iff.mp (Option.mem_toList.mp hd)
    rfl
  · obtain rfl := List.mem_singleton.mp hd
    rfl
  · rcases List.mem_append.mp hd with hd | hd
    · obtain ⟨target, -, hd⟩ := List.mem_filterMap.mp hd
      exact documented?_of_targetMember? hd
    · exact htable hd
  · exact htable hd
  · cases hd

end Collecting

/-- The documented type of a member stands in a comment. -/
theorem Index.exists_documented {p : Program} {cls : String} {d : MemberDecl}
    (hd : d ∈ (ofProgram p).membersOf cls) {ty : Ty} (hty : d.documented? = some ty) :
    ∃ id doc, p.doc? id = some doc ∧ ty ∈ doc.fields.map (·.ty) := by
  obtain ⟨-, file, -, id, -, hd⟩ := mem_membersOf_ofProgram.mp hd
  rcases List.mem_append.mp hd with hd | hd
  · unfold Collecting.docFields at hd
    split at hd
    · cases hd
    · rename_i doc hdoc
      split at hd
      · cases hd
      · obtain ⟨f, hf, rfl⟩ := List.mem_map.mp hd
        obtain rfl : f.ty = ty := Option.some_inj.mp hty
        exact ⟨id, doc, hdoc, List.mem_map_of_mem hf⟩
  · rw [Collecting.documented?_of_nodeMembers hd] at hty
    cases hty

/-- Whether the index is ready or not. -/
theorem Index.Keeps.ofProgram {T : TyInvariant} {p : Program} (h : p.Keeps T) (ready : Bool) :
    Index.Keeps { Index.ofProgram p with ready } T where
  aliases := by
    intro name a ha
    have halias : (Index.ofProgram p).findAlias? name = some a := by
      simp only [Index.findAlias?, Index.ready_ofProgram, if_true]
      simp only [Index.findAlias?] at ha
      split at ha
      · exact ha
      · cases ha
    obtain ⟨id, doc, hdoc, hmem⟩ := Index.exists_alias halias
    exact (h id doc hdoc).types a.target (List.mem_append_right _ hmem)
  members := by
    intro cls d hd ty hty
    have hindexed : d ∈ (Index.ofProgram p).membersOf cls := hd
    obtain ⟨id, doc, hdoc, hmem⟩ := Index.exists_documented hindexed hty
    exact (h id doc hdoc).types ty (by simp only [Doc.types, List.mem_append]; grind)

namespace Env.Keeps

variable {T : TyInvariant}

/-- Every request is answered by a type with the property, and the chains that it keeps hold no
other types. -/
theorem run {env : Env} (h : env.Keeps T) {α : Type} {P : α → Prop} {x : Asking α}
    (hx : T.asking.Ensures P x) {s : Request} (hs : T.discipline.State s) :
    T.discipline.Meets P (x.run env s) :=
  T.discipline.finish (fun _ _ hq hs =>
    T.discipline.answerWithin (fun _ hq => h.answer hq) maxInferDepth hq hs) (hx s hs)

/-- Whatever values of a node are picked, those have the property. -/
theorem inferPick {env : Env} (h : env.Keeps T) (id : NodeId) (pick : Pick) :
    T.infer.Ensures (T.Picked pick) (inferPick env id pick) :=
  fun _ hs =>
    let hrun := h.run (T.discipline.ask (q := .value id pick) trivial) hs
    ⟨hrun.1.1, hrun.2⟩

end Env.Keeps

theorem TyInvariant.state_new (T : TyInvariant) (memo : ClassMemo) :
    T.discipline.State { memo } := by
  intro name chain hchain
  simp at hchain

end LuaTypes
