import LuaTypes.Proofs.Guarded
import LuaTypes.Proofs.InvariantIndex

/-!
Questions nested in a new request. As long as the keys in progress are all that a request has
entered, a question with another key is let in, and its answer is the answer to the request. Where
questions were answered before, a question is let in as long as the budget lasts.
-/

namespace LuaTypes

/-! Guards. -/

/-- The guard of a new request in which these keys were entered, the last one first. -/
def Guard.during : List Key → Guard Key
  | [] => .ofProfile .inference
  | key :: keys => ((during keys).enter key).2

def Request.during (memo : ClassMemo) (keys : List Key) : Request :=
  { memo, guard := .during keys }

namespace Guard

variable {g : Guard Key} {key : Key} {keys : List Key}

/-- A guard of a request that has refused nothing, while the keys are in progress. -/
structure Open (g : Guard Key) (keys : List Key) : Prop where
  maxDepth : g.maxDepth = maxInferDepth
  maxWork : g.maxWork = maxInferWork
  mem (key : Key) : key ∈ g.inProgress ↔ key ∈ keys
  depth : g.depth = keys.length
  hitLimit : g.hitLimit = false

theorem open_new : Open (.ofProfile .inference) [] :=
  ⟨rfl, rfl, fun key => by simp [ofProfile, new], rfl, rfl⟩

/-- A key that is not in progress is let in while there is room for it. -/
theorem Open.enter (h : g.Open keys) (hfresh : key ∉ keys) (hroom : keys.length < maxInferDepth)
    (hwork : g.work < maxInferWork) : (g.enter key).1 = .entered ∧
      (g.enter key).2.Open (key :: keys) ∧ (g.enter key).2.work = g.work + 1 := by
  have hlimit : maxInferWork < maxWord32 := by decide
  have hkey : g.inProgress.contains key = false :=
    Bool.eq_false_iff.mpr fun hmem => hfresh ((h.mem key).mp hmem)
  have hmin : min (g.work + 1) maxWord32 = g.work + 1 := by omega
  have hdepth : g.depth < maxInferDepth := by rwa [h.depth]
  have henter : g.enter key = (.entered, { g with
      work := g.work + 1, depth := g.depth + 1, inProgress := g.inProgress.insert key }) := by
    rw [Guard.enter]
    simp only [hmin, h.maxWork, h.maxDepth, hkey]
    rw [if_neg (by omega), if_neg (by omega)]
    rfl
  rw [henter]
  exact ⟨rfl,
    ⟨h.maxDepth, h.maxWork, mem_insert_iff h.mem key, congrArg (· + 1) h.depth, h.hitLimit⟩, rfl⟩

theorem Open.leave (h : g.Open (key :: keys)) (hfresh : key ∉ keys) : (g.leave key).Open keys where
  maxDepth := h.maxDepth
  maxWork := h.maxWork
  mem := mem_leave_iff h.mem hfresh
  depth := by
    change g.depth - 1 = _
    rw [h.depth]
    rfl
  hitLimit := h.hitLimit

theorem open_during (hnodup : keys.Nodup) (hlength : keys.length ≤ maxInferDepth) :
    (during keys).Open keys ∧ (during keys).work = keys.length := by
  have hlimit : maxInferDepth ≤ maxInferWork := by decide
  induction keys with
  | nil => exact ⟨open_new, rfl⟩
  | cons key keys ih =>
    obtain ⟨hfresh, hnodup⟩ := List.nodup_cons.mp hnodup
    obtain ⟨hopen, hwork⟩ := ih hnodup (Nat.le_of_succ_le hlength)
    obtain ⟨-, hentered, hspent⟩ := hopen.enter hfresh hlength
      (hwork ▸ Nat.lt_of_lt_of_le hlength hlimit)
    exact ⟨hentered, by rw [during, hspent, hwork, List.length_cons]⟩

/-- A key that is not in progress is let in. -/
theorem enter_during (h : (key :: keys).Nodup) (hroom : keys.length < maxInferDepth) :
    (during keys).enter key = (.entered, during (key :: keys)) := by
  have hlimit : maxInferDepth ≤ maxInferWork := by decide
  obtain ⟨hfresh, hnodup⟩ := List.nodup_cons.mp h
  obtain ⟨hopen, hwork⟩ := open_during hnodup (Nat.le_of_lt hroom)
  exact Prod.ext (hopen.enter hfresh hroom (hwork ▸ Nat.lt_of_lt_of_le hroom hlimit)).1 rfl

end Guard

namespace Asking

/-! Computations in a new request. -/

section

variable (env : Env) {α β : Type} (memo : ClassMemo) (keys : List Key)

/-- What a computation gives in a new request while the keys are in progress. -/
def during (x : Asking α) : α :=
  ((x (.during memo keys)).finish (answerWithin env (maxInferDepth - keys.length))).1

variable {env} {memo} {keys}

theorem during_map (f : α → β) (x : Asking α) :
    (f <$> x).during env memo keys = f (x.during env memo keys) := by
  change (Run.finish _ (Run.bind _ _)).1 = _
  rw [Run.finish_bind]
  rfl

/-- What holds of everything that a computation may end with holds of what it gives. -/
theorem during_bind {x : Asking α} {f : α → Asking β} {P : α → Prop} {Q : β → Prop}
    (hx : P (x.during env memo keys))
    (hf : ∀ a s, P a → Q ((f a s).finish (answerWithin env (maxInferDepth - keys.length))).1) :
    Q ((x >>= f).during env memo keys) := by
  change Q (Run.finish _ (Run.bind _ _)).1
  rw [Run.finish_bind]
  exact hf _ _ hx

/-- What relates the ends of two computations that begin in the same way. -/
theorem during_bind_rel {γ : Type} {R : β → γ → Prop} (x : Asking α) {f : α → Asking β}
    {g : α → Asking γ}
    (h : ∀ s, let answer := answerWithin env (maxInferDepth - keys.length)
      R ((f (x.during env memo keys) s).finish answer).1
        ((g (x.during env memo keys) s).finish answer).1) :
    R ((x >>= f).during env memo keys) ((x >>= g).during env memo keys) := by
  change R (Run.finish _ (Run.bind _ _)).1 (Run.finish _ (Run.bind _ _)).1
  rw [Run.finish_bind, Run.finish_bind]
  exact h _

/-- A question that the guard lets in is answered, and then left. -/
theorem answerWithin_of_entered (hcancelled : env.cancelled = false) {q : Query} {s : Request}
    {g : Guard Key} (henter : s.guard.enter q.key = (.entered, g))
    (hroom : keys.length < maxInferDepth) :
    answerWithin env (maxInferDepth - keys.length) q s =
      let (ty, s) := (q.answer env { s with guard := g }).finish
        (answerWithin env (maxInferDepth - (q.key :: keys).length))
      (ty, { s with guard := s.guard.leave q.key }) := by
  have hoff : q.isOff env = false := by simp [Query.isOff, hcancelled]
  obtain ⟨room, hlevels⟩ := Nat.exists_eq_add_of_lt hroom
  have hlevel : maxInferDepth - keys.length = room + 1 := by omega
  have hlevel' : maxInferDepth - (q.key :: keys).length = room := by
    rw [List.length_cons]
    omega
  rw [hlevel, hlevel', answerWithin, hoff, if_neg Bool.false_ne_true, Infer.guarded_apply, henter]

/-- A question that is not in progress is answered as if nothing else had been asked. -/
theorem ask_during (hcancelled : env.cancelled = false) {q : Query} (h : (q.key :: keys).Nodup)
    (hroom : keys.length < maxInferDepth) :
    (ask q).during env memo keys = (q.answer env).during env memo (q.key :: keys) := by
  have henter : (Request.during memo keys).guard.enter q.key
      = (.entered, .during (q.key :: keys)) := Guard.enter_during h hroom
  change (answerWithin env (maxInferDepth - keys.length) q (.during memo keys)).1 = _
  rw [answerWithin_of_entered hcancelled henter hroom]
  rfl

/-- What a computation ensures holds of what it gives. -/
theorem during_ensures {D : Discipline}
    (hanswer : ∀ q, D.Asked q → D.asking.Ensures (D.Answered q) (q.answer env))
    (hs : D.State (.during memo keys)) {P : α → Prop} {x : Asking α} (hx : D.asking.Ensures P x) :
    P (x.during env memo keys) :=
  (D.finish (fun _ _ hq hs => D.answerWithin hanswer _ hq hs) (hx _ hs)).1

theorem during_free {P : α → Prop} {x : Asking α} (hx : Discipline.free.asking.Ensures P x) :
    P (x.during env memo keys) :=
  during_ensures (fun q _ => Discipline.free_ensures (q.answer env)) trivial hx

theorem during_keeps {T : TyInvariant} (h : env.Keeps T) {P : α → Prop} {x : Asking α}
    (hx : T.asking.Ensures P x) : P (x.during env memo keys) := by
  refine during_ensures (fun _ hq => h.answer hq) (fun name chain hchain => ?_) hx
  simp [Request.during] at hchain

end

/-! Computations that the guard refuses nothing. -/

section

variable (env : Env) {α β : Type} (keys : List Key)

/-- While the keys are in progress, the computation gives the value after so many questions, if the
budget lasts. -/
def Yields (x : Asking α) (a : α) (n : Nat) : Prop :=
  ∀ s : Request, s.guard.Open keys → s.guard.work + n ≤ maxInferWork → ∃ g,
    (x s).finish (answerWithin env (maxInferDepth - keys.length)) = (a, { s with guard := g }) ∧
    g.Open keys ∧ g.work = s.guard.work + n

variable {env} {keys} {a : α} {b : β} {n m : Nat}

namespace Yields

theorem pure (a : α) : (Pure.pure a : Asking α).Yields env keys a 0 :=
  fun s hopen _ => ⟨s.guard, rfl, hopen, rfl⟩

theorem bind {x : Asking α} {f : α → Asking β} (hx : x.Yields env keys a n)
    (hf : (f a).Yields env keys b m) : (x >>= f).Yields env keys b (n + m) := by
  intro s hopen hwork
  obtain ⟨g, hfinish, hopen, hspent⟩ := hx s hopen (by omega)
  obtain ⟨g', hfinish', hopen, hspent'⟩ := hf { s with guard := g } hopen (by simp only; omega)
  refine ⟨g', ?_, hopen, by simp only at hspent'; omega⟩
  change ((x s).bind f).finish _ = _
  rw [Run.finish_bind, hfinish]
  exact hfinish'

theorem ask (hcancelled : env.cancelled = false) {q : Query} {ty : Ty} (hfresh : q.key ∉ keys)
    (hroom : keys.length < maxInferDepth)
    (h : (q.answer env).Yields env (q.key :: keys) ty n) :
    (ask q).Yields env keys ty (1 + n) := by
  intro s hopen hwork
  obtain ⟨hentered, hopen, hspent⟩ := hopen.enter hfresh hroom (by omega)
  obtain ⟨g, hfinish, hopen, hspent'⟩ :=
    h { s with guard := (s.guard.enter q.key).2 } hopen (by simp only [hspent]; omega)
  refine ⟨g.leave q.key, ?_, hopen.leave hfresh, ?_⟩
  · change answerWithin env _ q s = _
    rw [answerWithin_of_entered hcancelled (Prod.ext hentered rfl) hroom, hfinish]
  · change g.work = _
    simp only at hspent'
    omega

theorem mapM {f : α → Asking β} {as : List α} (g : α → β)
    (h : ∀ a ∈ as, (f a).Yields env keys (g a) n) :
    (as.mapM f).Yields env keys (as.map g) (as.length * n) := by
  induction as with
  | nil => exact (Nat.zero_mul n).symm ▸ pure []
  | cons a as ih =>
    obtain ⟨ha, hrest⟩ := List.forall_mem_cons.mp h
    rw [List.mapM_cons, List.length_cons, Nat.succ_mul, Nat.add_comm]
    apply ha.bind
    exact (ih hrest).bind (f := fun bs => Pure.pure (g a :: bs)) (pure _)

/-- What a computation gives in a new request. -/
theorem run {x : Asking α} (h : x.Yields env [] a n) (hn : n ≤ maxInferWork)
    (memo : ClassMemo) : ∃ g : Guard Key, x.run env { memo } = (a, { memo, guard := g }) ∧
      g.hitLimit = false := by
  have hbudget : 0 + n ≤ maxInferWork := by rwa [Nat.zero_add]
  obtain ⟨g, hfinish, hopen, -⟩ := h { memo } Guard.open_new hbudget
  exact ⟨g, hfinish, hopen.hitLimit⟩

theorem during {x : Asking α} (h : x.Yields env keys a n) (hnodup : keys.Nodup)
    (hlength : keys.length ≤ maxInferDepth) (hn : keys.length + n ≤ maxInferWork)
    (memo : ClassMemo) : x.during env memo keys = a := by
  obtain ⟨hopen, hwork⟩ := Guard.open_during hnodup hlength
  obtain ⟨g, hfinish, -⟩ := h (.during memo keys) hopen (by rwa [Request.during, hwork])
  exact congrArg Prod.fst hfinish

end Yields

end

end Asking

/-! Nodes. -/

theorem Env.index_ofProgram (p : Program) (settings : Settings) :
    (Env.ofProgram p settings).index = .ofProgram p := rfl

theorem nodeTy_nameRef {env : Env} {id : NodeId} {name : String}
    (hnode : env.program.node? id = some (.nameRef name)) (pick : Pick) :
    nodeTy env id pick = nameTy env id name := by
  unfold nodeTy
  rw [hnode]

theorem nodeTy_call {env : Env} {id callee : NodeId} {args : List NodeId}
    (hnode : env.program.node? id = some (.call callee args)) (pick : Pick) :
    nodeTy env id pick = callTy env callee args pick := by
  unfold nodeTy
  rw [hnode]

/-- The value of a call that nothing else was asked before. -/
theorem inferPick_call {env : Env} (hcancelled : env.cancelled = false) {id callee : NodeId}
    {args : List NodeId} (hnode : env.program.node? id = some (.call callee args)) (pick : Pick)
    (memo : ClassMemo) : (inferPick env id pick { memo }).1
      = (callTy env callee args pick).during env memo [.node id] := by
  have hfresh : [(Query.value id pick).key].Nodup := List.pairwise_singleton _ _
  rw [← nodeTy_call hnode]
  exact Asking.ask_during hcancelled hfresh (by decide)

/-- A return statement that lists none or several values. -/
theorem returnedTy_yields {env : Env} {keys : List Key} {values : List NodeId} {n : Nat}
    (hlength : values.length ≠ 1) (g : NodeId → Ty)
    (h : ∀ value ∈ values, (valueTy value).Yields env keys (g value) n) :
    (returnedTy values).Yields env keys (.tuple (values.map g)) (values.length * n) := by
  have htuple : returnedTy values = (do return .tuple (← values.mapM valueTy)) := by
    unfold returnedTy
    split
    · exact absurd rfl hlength
    · rfl
  rw [htuple]
  apply Asking.Yields.bind (m := 0) (Asking.Yields.mapM g h)
  exact .pure _

/-- A function without a comment and parameters has whatever result its body has. -/
theorem functionTy_bare {env : Env} {func block : NodeId} {node : Node}
    (hnode : env.program.node? func = some node) (hbody : node.funcBody? = some ⟨[], false, block⟩)
    (hdoc : env.program.functionDoc? func = none) : functionTy env func = (do
      return .func ⟨node.isColonMethod, [], none, ← bodyReturnTy env block, []⟩ []) := by
  unfold functionTy
  simp only [hnode, hbody, hdoc]
  rfl

end LuaTypes
