import LuaTypes.Infer.Session
import LuaTypes.Program.Draft
import LuaTypes.Proofs.Degraded

/-!
Requests are independent. The memo of class details only ever holds what the index says, so that a
request gives the type that it would give as the first one of its session. Only the cells of the
classes that it makes have other numbers.
-/

namespace LuaTypes

/-- Whatever the memo holds about a class is what the resolver says. -/
def ClassMemo.Agrees (memo : ClassMemo) (r : Resolver) : Prop :=
  ∀ (name : String) (cell : Nat) (d : ClassDetails),
    memo.read[(name, cell)]? = some d → d = (r.details? name).getD {}

theorem ClassMemo.agrees_empty (r : Resolver) : Agrees {} r := fun name cell d hd => by
  simp at hd

/-- All cells of a value are below `n`: renaming others changes nothing. -/
def CellsBelow {α : Type} (rename : CellMap → α → α) (n : Nat) (a : α) : Prop :=
  ∀ ρ : CellMap, (∀ cell < n, ρ cell = cell) → rename ρ a = a

/-- Nothing has been read yet, and the cells of the program are taken already. -/
structure Session.Unread (s : Session) : Prop where
  read : s.memo.read = {}
  doc {id : NodeId} {doc : Doc} :
    s.env.program.doc? id = some doc → CellsBelow Doc.rename s.memo.next doc
  target {name : String} {decl : AliasDecl} :
    s.env.index.aliases[name]? = some decl → CellsBelow Ty.rename s.memo.next decl.target
  member {cls : String} {d : MemberDecl} :
    d ∈ s.env.index.membersOf cls → CellsBelow MemberDecl.rename s.memo.next d

/-- Cells from `n` on are moved up. -/
def shiftFrom (n shift : Nat) : CellMap := fun cell => if cell < n then cell else cell + shift

theorem shiftFrom_below (n shift : Nat) : ∀ cell < n, shiftFrom n shift cell = cell :=
  fun _ h => if_pos h

theorem shiftFrom_injective {n shift a b : Nat} (h : shiftFrom n shift a = shiftFrom n shift b) :
    a = b := by
  unfold shiftFrom at h
  split at h <;> split at h <;> omega

/-- The details of a class, known or as the resolver says. -/
def ClassTy.detailsBy (r : Resolver) (c : ClassTy) : ClassDetails :=
  match c.details with
  | .known d => d
  | .deferred _ => (r.details? c.name).getD {}

theorem ClassTy.detailsBy_rename (r : Resolver) (ρ : CellMap) (c : ClassTy) :
    (c.rename ρ).detailsBy r = c.detailsBy r := by
  obtain ⟨_, _, _, _, details⟩ := c
  cases details <;> rfl

/-- Where the memo holds what the resolver says, every class reads as the resolver says. -/
theorem ClassTy.readDetails_agrees {r : Resolver} (h : r.ready = true) (c : ClassTy)
    {memo : ClassMemo} (hmemo : memo.Agrees r) :
    (c.readDetails r memo).1 = c.detailsBy r ∧ (c.readDetails r memo).2.next = memo.next ∧
      (c.readDetails r memo).2.Agrees r := by
  obtain ⟨name, var, flags, origin, details⟩ := c
  cases details with
  | known d => exact ⟨rfl, rfl, hmemo⟩
  | deferred cell =>
    simp only [readDetails, h, if_true]
    cases hcell : memo.read[(name, cell)]? with
    | some d => exact ⟨hmemo name cell d hcell, rfl, hmemo⟩
    | none =>
      refine ⟨rfl, rfl, ?_⟩
      intro other n d hd
      simp only [Std.HashMap.getElem?_insert] at hd
      split at hd
      · rename_i hkey
        have hname : name = other := congrArg Prod.fst (beq_iff_eq.mp hkey)
        rw [← hname, ← Option.some_inj.mp hd]
      · exact hmemo other n d hd

theorem Index.mem_membersOf_of_classMembers {ix : Index} {cls : String} {d : MemberDecl}
    (h : d ∈ ix.classMembers cls) : d ∈ ix.membersOf cls := by
  unfold classMembers at h
  split at h
  · simp at h
  · simp only [List.mem_append, List.mem_filter] at h
    grind

theorem Index.mem_membersOf_of_exact {ix : Index} {cls name : String} {d : MemberDecl}
    (h : d ∈ ix.exact cls name false) : d ∈ ix.membersOf cls := by
  unfold exact at h
  split at h
  · simp at h
  · simp only [Bool.false_eq_true, if_false, List.append_nil] at h
    exact (List.mem_filter.mp h).1

/-- A request on a memo where nothing has been read and a later one, which numbers its own cells
`shift` further on. -/
def Simulation.later {s : Session} (h : s.Unread) (hready : s.env.index.ready = true)
    (shift : Nat) : Simulation s.env s.env.index where
  ρ := shiftFrom s.memo.next shift
  Memo m m' := s.memo.next ≤ m.next ∧ m'.next = m.next + shift ∧
    m.Agrees s.env.resolver ∧ m'.Agrees s.env.resolver
  fresh := fun {m m'} ⟨hgrown, hnext, hm, hm'⟩ => by
    refine ⟨?_, Nat.le_succ_of_le hgrown, ?_, hm, hm'⟩
    · rw [hnext, shiftFrom, if_neg (Nat.not_lt.mpr hgrown)]
    · rw [hnext, Nat.add_right_comm]
  details := fun {m m'} c ⟨hgrown, hnext, hm, hm'⟩ => by
    obtain ⟨hd, hn, hagrees⟩ := c.readDetails_agrees hready hm
    obtain ⟨hd', hn', hagrees'⟩ :=
      (c.rename (shiftFrom s.memo.next shift)).readDetails_agrees hready hm'
    rw [ClassTy.detailsBy_rename] at hd'
    refine ⟨hd'.trans hd.symm, Nat.le_trans hgrown (Nat.le_of_eq hn.symm), ?_, hagrees, hagrees'⟩
    calc _ = m'.next := hn'
      _ = m.next + shift := hnext
      _ = _ := congrArg (· + shift) hn.symm
  doc? := fun id => by
    cases hdoc : s.env.program.doc? id with
    | none => rfl
    | some doc => exact congrArg some (h.doc hdoc _ (shiftFrom_below _ shift))
  findClass? := fun _ => rfl
  alias? := fun name => by
    change (s.env.index.findAlias? name).map (·.target) = _
    simp only [Env.resolver, Index.resolver, Index.findAlias?, hready, if_true]
    cases hdecl : s.env.index.aliases[name]? with
    | none => rfl
    | some decl => exact congrArg some (h.target hdecl _ (shiftFrom_below _ shift)).symm
  aliasRoom := .inl rfl
  hasMembers := fun _ => rfl
  classMembers := fun cls => by
    have hfixed : ∀ d ∈ s.env.index.classMembers cls, MemberDecl.rename _ d = id d := fun d hd =>
      h.member (Index.mem_membersOf_of_classMembers hd) _ (shiftFrom_below _ shift)
    rw [List.map_congr_left hfixed, List.map_id]
  exact := fun cls name => by
    have hfixed : ∀ d ∈ s.env.index.exact cls name false, MemberDecl.rename _ d = id d := fun d hd =>
      h.member (Index.mem_membersOf_of_exact hd) _ (shiftFrom_below _ shift)
    rw [List.map_congr_left hfixed, List.map_id]

namespace Session

theorem Unread.setReady {s : Session} (h : s.Unread) (ready : Bool) : (s.setReady ready).Unread :=
  ⟨h.read, h.doc, h.target, h.member⟩

/-- What holds after any commands: but for the memo and the readiness of the index nothing has
changed, and the memo holds only what the index says when it is ready. -/
structure Follows (start s : Session) : Prop where
  env : s.env = (start.setReady s.env.index.ready).env
  grown : start.memo.next ≤ s.memo.next
  agrees : s.memo.Agrees (start.setReady true).env.resolver

variable {start s : Session}

theorem Follows.refl (h : start.Unread) : Follows start start where
  env := rfl
  grown := Nat.le_refl _
  agrees := fun name cell d hd => by simp [h.read] at hd

/-- A request while the index is ready, beside the same request at the start. -/
theorem Follows.inferPick_ready (h : start.Unread) (hs : Follows start s)
    (hready : s.env.index.ready = true) (node : NodeId) (pick : Pick) :
    s.answer node pick = ((start.setReady true).answer node pick).rename
        (shiftFrom start.memo.next (s.memo.next - start.memo.next)) ∧
      Follows start (s.perform (.infer node pick)) := by
  have henv : s.env = (start.setReady true).env := hready ▸ hs.env
  -- Its own cells are numbered further on by as many as were taken since the start.
  let S := Simulation.later (h.setReady true) rfl (s.memo.next - start.memo.next)
  have hmemo : S.Memo start.memo s.memo :=
    ⟨Nat.le_refl _, (Nat.add_sub_cancel' hs.grown).symm, (Follows.refl h).agrees, hs.agrees⟩
  obtain ⟨hty, g, hstate⟩ := S.inferPick_agree node pick (Simulation.State.new S hmemo)
  obtain ⟨hgrown, hnext, -, hagrees⟩ := hstate.memo
  simp only [answer, Session.perform, henv]
  exact ⟨hty, ⟨rfl, Nat.le_trans hgrown (hnext ▸ Nat.le_add_right _ _), hagrees⟩⟩

theorem Follows.perform (h : start.Unread) (hs : Follows start s) (c : Command) :
    Follows start (s.perform c) := by
  cases c with
  | setReady ready =>
    refine ⟨?_, hs.grown, hs.agrees⟩
    change (s.setReady ready).env = _
    rw [Session.setReady, hs.env]
    rfl
  | infer node pick =>
    cases hready : s.env.index.ready with
    | true => exact (hs.inferPick_ready h hready node pick).2
    | false =>
      obtain ⟨-, hsilent⟩ := Silent.of_inferPick hready node pick s.memo
      refine ⟨hs.env, Nat.le_trans hs.grown hsilent.grown, ?_⟩
      intro name cell d hd
      exact hs.agrees name cell d (hsilent.unread ▸ hd)

theorem Follows.after (h : start.Unread) (hs : Follows start s) (commands : List Command) :
    Follows start (s.after commands) := by
  induction commands generalizing s with
  | nil => exact hs
  | cons c commands ih => exact ih (hs.perform h c)

/-- Whatever commands came before, a request while the index is ready gives the type that it gives
as the first request, where only the cells that the request itself takes have other numbers. -/
theorem answer_after (start : Session) (h : start.Unread) (commands : List Command)
    (hready : (start.after commands).env.index.ready = true) (node : NodeId) (pick : Pick) :
    ∃ ρ : CellMap, (∀ cell < start.memo.next, ρ cell = cell) ∧ (∀ a b, ρ a = ρ b → a = b) ∧
      (start.after commands).answer node pick
        = ((start.setReady true).answer node pick).rename ρ ∧
      ((start.after commands).answer node pick == (start.setReady true).answer node pick) = true := by
  have hs := (Follows.refl h).after h commands
  obtain ⟨hty, -⟩ := hs.inferPick_ready h hready node pick
  refine ⟨_, shiftFrom_below _ _, fun a b => shiftFrom_injective, hty, ?_⟩
  rw [hty]
  exact Ty.same_self _ _

/-- The program `local a`, where the comment of the statement gives `a` the class `Animal`, with an
index that declares the class. -/
def animal : Session where
  env := {
    program := Draft.build {
      nodes := #[.nameDef "a", .localDef [0] [], .block [1]]
      docs := ({} : Std.HashMap NodeId Doc).insert 1 { type? := some (.cls (.deferred "Animal" 0)) }
      files := #[⟨"zoo.lua", 2, false⟩] }
    index := ({} : Index).addClass ⟨"Animal", 0, 1, false, { supers := ["Thing"] }⟩
    settings := {}
    resolveModule? := fun _ => none
    cancelled := false }
  memo := { next := 1 }

theorem animal_unread : animal.Unread where
  read := rfl
  doc := fun {id doc} h ρ hρ => by
    simp only [animal, Program.doc?, Draft.build, Std.HashMap.getElem?_insert] at h
    split at h
    · rw [← Option.some_inj.mp h]
      simp [Doc.rename, hρ 0 Nat.one_pos]
    · simp at h
  target := fun h => by simp [animal, Index.addClass] at h
  member := fun h => by simp [animal, Index.addClass, Index.membersOf] at h

/-- After an outage in which the same node was asked for. -/
theorem answer_after_outage :
    ∃ ρ : CellMap, (∀ cell < animal.memo.next, ρ cell = cell) ∧ (∀ a b, ρ a = ρ b → a = b) ∧
      (animal.after [.setReady false, .infer 0 (.nth 0), .setReady true]).answer 0 (.nth 0)
        = ((animal.setReady true).answer 0 (.nth 0)).rename ρ ∧
      ((animal.after [.setReady false, .infer 0 (.nth 0), .setReady true]).answer 0 (.nth 0)
        == (animal.setReady true).answer 0 (.nth 0)) = true :=
  answer_after animal animal_unread _ rfl 0 (.nth 0)

end Session

end LuaTypes
