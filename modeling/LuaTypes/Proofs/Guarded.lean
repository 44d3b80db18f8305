import LuaTypes.Proofs.GuardRuns
import LuaTypes.Proofs.Steps

/-!
What the guard keeps. Between two questions a run leaves the guard and the chain depth as they are;
so at every moment the keys in progress are those of the answers that somebody waits for, and when a
demand is met everything is as it was before.
-/

namespace LuaTypes

variable {α β : Type} {env : Env}

namespace Guard

variable {g g' : Guard Key} {keys : List Key} {count : Nat} {key : Key}

theorem mem_insert_iff (h : ∀ other, other ∈ g.inProgress ↔ other ∈ keys) (key other : Key) :
    other ∈ g.inProgress.insert key ↔ other ∈ key :: keys := by
  rw [Std.HashSet.mem_insert, h, List.mem_cons, beq_iff_eq, eq_comm]

theorem mem_leave_iff (h : ∀ other, other ∈ g.inProgress ↔ other ∈ key :: keys) (hkey : key ∉ keys)
    (other : Key) : other ∈ (g.leave key).inProgress ↔ other ∈ keys := by
  rw [leave, Std.HashSet.mem_erase, h, List.mem_cons, beq_eq_false_iff_ne]
  grind

/-- The guard of a request while these keys are in progress, after `count` keys were let in. -/
structure Watches (g : Guard Key) (keys : List Key) (count : Nat) : Prop where
  maxDepth : g.maxDepth = maxInferDepth
  maxWork : g.maxWork = maxInferWork
  mem (key : Key) : key ∈ g.inProgress ↔ key ∈ keys
  nodup : keys.Nodup
  size : g.inProgress.size = keys.length
  depth : g.depth = keys.length
  bound : keys.length ≤ maxInferDepth
  work : count ≤ g.work
  budget : count ≤ maxInferWork

namespace Watches

theorem start : (.ofProfile .inference : Guard Key).Watches [] 0 where
  maxDepth := rfl
  maxWork := rfl
  mem := fun key => by simp [Guard.ofProfile, Guard.new]
  nodup := List.nodup_nil
  size := rfl
  depth := rfl
  bound := Nat.zero_le _
  work := Nat.zero_le _
  budget := Nat.zero_le _

/-- A key that is let in was not in progress. -/
theorem entered (h : g.Watches keys count) (henter : g.enter key = (.entered, g')) :
    key ∉ g.inProgress ∧ g'.Watches (key :: keys) (count + 1) := by
  obtain ⟨hwork, hdepth, hkey, rfl⟩ := enter_entered henter
  rw [h.maxWork, maxInferWork, maxWord32] at hwork
  rw [h.maxDepth, h.depth] at hdepth
  have hcount := h.work
  refine ⟨hkey, ?_⟩
  exact {
    maxDepth := h.maxDepth
    maxWork := h.maxWork
    mem := mem_insert_iff h.mem key
    nodup := List.nodup_cons.mpr ⟨fun hmem => hkey ((h.mem key).mpr hmem), h.nodup⟩
    size := by simp [Std.HashSet.size_insert, hkey, h.size]
    depth := congrArg (· + 1) h.depth
    bound := hdepth
    work := by simp only [maxWord32]; omega
    budget := by simp only [maxInferWork]; omega }

/-- A key that is refused changes no more than the work. -/
theorem refused (h : g.Watches keys count) {a : Admission} (ha : a ≠ .entered)
    (henter : g.enter key = (a, g')) : g'.Watches keys count := by
  have hcount := h.work
  have hbudget := h.budget
  obtain rfl := enter_refused ha henter
  exact { h with
    work := by
      simp only [maxWord32, maxInferWork] at *
      omega }

theorem leave (h : g.Watches (key :: keys) count) : (g.leave key).Watches keys count where
  maxDepth := h.maxDepth
  maxWork := h.maxWork
  mem := mem_leave_iff h.mem (List.nodup_cons.mp h.nodup).1
  nodup := (List.nodup_cons.mp h.nodup).2
  size := by
    have hkey : key ∈ g.inProgress := (h.mem key).mpr List.mem_cons_self
    simp [Guard.leave, Std.HashSet.size_erase, hkey, h.size]
  depth := by simp [Guard.leave, h.depth]
  bound := Nat.le_of_succ_le h.bound
  work := h.work
  budget := h.budget

end Watches

end Guard

/-! Runs. -/

/-- A request with this guard, with so many chains in the making. -/
structure Request.Holds (s : Request) (g : Guard Key) (depth : Nat) : Prop where
  guard : s.guard = g
  depth : s.chainDepth.depth = depth
  limit : s.chainDepth.maxDepth = maxChainDepth

/-- A run that keeps the guard and the chain depth as they are until it asks, and goes on so
whatever the guard is then. -/
inductive Run.Steady (depth : Nat) : Guard Key → Run α → Prop
  | done {g : Guard Key} {a : α} {s : Request} : s.Holds g depth → Steady depth g (.done a s)
  | asks {g : Guard Key} {q : Query} {s : Request} {resume : Ty → Request → Run α} :
    s.Holds g depth → (∀ g ty s, s.Holds g depth → Steady depth g (resume ty s)) →
    Steady depth g (.asks q s resume)

theorem Run.Steady.map {depth : Nat} {g : Guard Key} {r : Run α} (h : r.Steady depth g)
    (f : α → β) : (r.bind fun a => pure (f a)).Steady depth g := by
  induction h with
  | done hs => exact .done hs
  | asks hs _ ih => exact .asks hs ih

/-- A computation whose runs are steady. -/
def Asking.Steady (x : Asking α) : Prop :=
  ∀ depth g s, s.Holds g depth → (x s).Steady depth g

theorem Simulation.State.refl {s : Request} {g : Guard Key} {depth : Nat} (h : s.Holds g depth) :
    (Simulation.refl env).State (g, g) depth s s where
  memo := rfl
  guard := h.guard
  guard' := h.guard
  chainDepth := rfl
  depth := h.depth
  limit := h.limit
  chains := fun name => by
    simp only [Simulation.refl, funext MemberChain.rename_id, Option.map_id']

theorem Simulation.RunMaps.steady {φ : α → β} {g : Guard Key} {depth : Nat} {r : Run α}
    {r' : Run β} (h : (Simulation.refl env).RunMaps φ depth (g, g) r r') : r.Steady depth g := by
  generalize hguards : (g, g) = guards at h
  induction h generalizing g with
  | done h =>
    subst hguards
    exact .done ⟨h.guard, h.depth, h.limit⟩
  | asks h _ ih =>
    subst hguards
    exact .asks ⟨h.guard, h.depth, h.limit⟩ fun g ty s hs => ih (g, g) ty s s (.refl hs) rfl

namespace Asking.Steady

theorem of_maps {x : Asking α} {y : Asking β} {φ : α → β}
    (h : (Simulation.refl env).asking.Maps φ x y) : x.Steady :=
  fun depth g s hs => (h depth (g, g) s s (.refl hs)).steady

theorem map {x : Asking α} (h : x.Steady) (f : α → β) : Steady (f <$> x) :=
  fun depth g s hs => (h depth g s hs).map f

theorem answer (env : Env) (q : Query) : (q.answer env).Steady :=
  of_maps ((Simulation.refl env).answer_maps q)

theorem demand (env : Env) (d : Demand) : (d.asking env).Steady := by
  let S := Simulation.refl env
  cases d with
  | infer node | inferAt node _ | inferTuple node =>
    exact (of_maps (S.ask_maps (.value node _))).map Outcome.ty
  | functionType func => exact (of_maps (S.functionTy_maps func)).map Outcome.ty
  | globalType name => exact (of_maps (S.globalTy_maps name)).map Outcome.ty
  | lookupMember ty name use => exact (of_maps (S.lookupTy_maps ty name use)).map Outcome.ty
  | fieldType cls name use => exact (of_maps (S.fieldTy_maps cls name use)).map Outcome.ty
  | moduleType file => exact (of_maps (S.moduleTy_maps file)).map Outcome.ty
  | memberType decl => exact (of_maps (S.memberTy_maps decl)).map Outcome.ty
  | memberChain cls => exact (of_maps (S.ofInfer_maps (S.memberChain_maps cls))).map Outcome.chain

end Asking.Steady

/-! Moments. -/

/-- Those who wait go on steadily. -/
def Waiting.Steady (depth : Nat) {β : Type} : Waiting α β → Prop
  | .caller => True
  | .asker _ resume below =>
    (∀ g ty s, s.Holds g depth → (resume ty s).Steady depth g) ∧ below.Steady depth

/-- What holds at every moment, after `count` keys were let in. -/
structure Moment.Sound (count depth : Nat) (m : Moment α) : Prop where
  run : m.run.Steady depth m.guard
  waiting : m.waiting.Steady depth
  guard : m.guard.Watches m.waiting.keys count

theorem Run.Steady.holds {depth : Nat} {g : Guard Key} {r : Run α} (h : r.Steady depth g) :
    r.state.Holds g depth := by
  cases h with
  | done h => exact h
  | asks h _ => exact h

theorem Run.Steady.resume {depth : Nat} {g : Guard Key} {q : Query} {s : Request}
    {resume : Ty → Request → Run α} (h : (Run.asks q s resume).Steady depth g) :
    ∀ g ty s, s.Holds g depth → (resume ty s).Steady depth g := by
  cases h with
  | asks _ h => exact h

theorem Moment.Sound.of {count depth : Nat} {g : Guard Key} {run : Run β} {waiting : Waiting α β}
    (hrun : run.Steady depth g) (hwaiting : waiting.Steady depth)
    (hguard : g.Watches waiting.keys count) : Moment.Sound count depth ⟨run, waiting⟩ := by
  obtain rfl : run.state.guard = g := hrun.holds.guard
  exact ⟨hrun, hwaiting, hguard⟩

theorem Moment.Sound.step {count depth : Nat} {m m' : Moment α} {key? : Option Key}
    (h : m.Sound count depth) (hstep : m.step env = some (key?, m')) :
    (∀ key, key? = some key → key ∉ m.guard.inProgress) ∧
      m'.Sound (key?.toList.length + count) depth := by
  obtain ⟨hrun, hwaiting, hguard⟩ := h
  obtain ⟨run, waiting⟩ := m
  -- Either the run has ended and its asker goes on, or it asks a question, which is switched off,
  -- let in or refused.
  have hs := hrun.holds
  cases run with
  | done a s =>
    cases waiting with
    | caller => simp [Moment.step] at hstep
    | asker key resume below =>
      simp only [Moment.step, Option.some.injEq, Prod.mk.injEq] at hstep
      obtain ⟨rfl, rfl⟩ := hstep
      have hleft : { s with guard := s.guard.leave key }.Holds (s.guard.leave key) depth :=
        { hs with guard := rfl }
      have hrun := hwaiting.1 _ a _ hleft
      refine ⟨by simp, .of hrun hwaiting.2 ?_⟩
      rw [Option.toList_none, List.length_nil, Nat.zero_add]
      exact Guard.Watches.leave hguard
  | asks q s resume =>
    have hresume := hrun.resume
    simp only [Moment.step] at hstep
    split at hstep
    · simp only [Option.some.injEq, Prod.mk.injEq] at hstep
      obtain ⟨rfl, rfl⟩ := hstep
      refine ⟨by simp, .of (hresume s.guard .unknown s { hs with guard := rfl }) hwaiting ?_⟩
      rw [Option.toList_none, List.length_nil, Nat.zero_add]
      exact hguard
    · split at hstep
      · rename_i guard henter
        simp only [Option.some.injEq, Prod.mk.injEq] at hstep
        obtain ⟨rfl, rfl⟩ := hstep
        obtain ⟨hkey, hguard⟩ := Guard.Watches.entered hguard henter
        have hentered : { s with guard }.Holds guard depth := { hs with guard := rfl }
        refine ⟨?_, .of (Asking.Steady.answer env q depth guard _ hentered) ⟨hresume, hwaiting⟩ ?_⟩
        · rintro key ⟨⟩
          exact hkey
        · rw [Option.toList_some, List.length_singleton, Nat.add_comm]
          exact hguard
      · rename_i a guard hrefused henter
        simp only [Option.some.injEq, Prod.mk.injEq] at hstep
        obtain ⟨rfl, rfl⟩ := hstep
        have hguard := Guard.Watches.refused hguard hrefused henter
        refine ⟨by simp, .of (hresume guard .unknown _ { hs with guard := rfl }) hwaiting ?_⟩
        rw [Option.toList_none, List.length_nil, Nat.zero_add]
        exact hguard

/-! Stages. -/

/-- What holds at every stage, after `count` keys were let in. -/
def Stage.Sound (count : Nat) : Stage → Prop
  | .idle s => s.guard.Watches [] count ∧ s.Holds s.guard 0
  | .busy start m =>
    (∃ before, start.guard.Watches [] before) ∧ start.Holds start.guard 0 ∧ m.Sound count 0

theorem Reached.sound {keys : List Key} {stage : Stage} (h : Reached env keys stage) :
    stage.Sound keys.length := by
  induction h with
  | new memo => exact ⟨.start, rfl, rfl, rfl⟩
  | @demand keys s d _ ih =>
    obtain ⟨hguard, hs⟩ := ih
    exact ⟨⟨_, hguard⟩, hs, .of (Asking.Steady.demand env d 0 s.guard s hs) trivial hguard⟩
  | step _ hstep ih =>
    obtain ⟨hstart, hs, hm⟩ := ih
    rw [List.length_append]
    exact ⟨hstart, hs, (hm.step hstep).2⟩
  | met _ ih =>
    obtain ⟨-, -, hm⟩ := ih
    exact ⟨hm.guard, { hm.run.holds with guard := rfl }⟩

/-! Every demand is met. -/

theorem Steps.trans {m m' m'' : Moment α} (h : Steps env m m') (h' : Steps env m' m'') :
    Steps env m m'' := by
  induction h with
  | refl => exact h'
  | head hstep _ ih => exact .head hstep (ih h')

/-- The states of a request before and after something that leaves the nesting as it is. -/
structure Request.Returns (depth : Nat) (s s' : Request) : Prop where
  holds : s'.Holds s'.guard depth
  depth : s'.guard.depth = s.guard.depth
  maxDepth : s'.guard.maxDepth = s.guard.maxDepth

theorem Run.Steady.returns {depth : Nat} {answer : Query → Infer Ty}
    (h : ∀ q (s : Request), s.Holds s.guard depth → s.Returns depth (answer q s).2) {g : Guard Key}
    {run : Run β} (hrun : run.Steady depth g) :
    run.state.Returns depth (run.finish answer).2 := by
  induction hrun with
  | done hs => exact ⟨{ hs with guard := rfl }, rfl, rfl⟩
  | @asks g q s resume hs hresume ih =>
    obtain ⟨hholds, hdepth, hmaxDepth⟩ := h q s { hs with guard := rfl }
    have hends := ih _ (answer q s).1 _ hholds
    have hstate := (hresume _ (answer q s).1 _ hholds).holds.guard
    rw [Run.finish]
    refine ⟨hends.holds, hends.depth.trans ?_, hends.maxDepth.trans ?_⟩
    · rw [hstate, hdepth]; rfl
    · rw [hstate, hmaxDepth]; rfl

theorem Infer.guarded_returns {depth : Nat} {answer : Infer Ty}
    (h : ∀ s : Request, s.Holds s.guard depth → s.Returns depth (answer s).2) (key : Key) {s : Request}
    (hs : s.Holds s.guard depth) : s.Returns depth (Infer.guarded key answer s).2 := by
  rw [Infer.guarded_apply]
  rcases henter : s.guard.enter key with ⟨a, guard⟩
  have hentered : { s with guard }.Holds guard depth := { hs with guard := rfl }
  by_cases ha : a = .entered
  · subst ha
    obtain ⟨-, -, -, hguard⟩ := Guard.enter_entered henter
    obtain ⟨hholds, hdepth, hmaxDepth⟩ := h _ hentered
    refine ⟨{ hholds with guard := rfl }, ?_, ?_⟩
    · change (answer _).2.guard.depth - 1 = _
      rw [hdepth, hguard]
      rfl
    · refine hmaxDepth.trans ?_
      rw [hguard]
  · have hguard := Guard.enter_refused ha henter
    have hreturns : s.Returns depth { s with guard } := ⟨hentered, by rw [hguard], by rw [hguard]⟩
    cases a with
    | entered => exact absurd rfl ha
    | _ => exact hreturns

theorem answerWithin_returns (env : Env) {depth : Nat} (room : Nat) (q : Query) {s : Request}
    (hs : s.Holds s.guard depth) : s.Returns depth (answerWithin env room q s).2 := by
  induction room generalizing q s with
  | zero =>
    simp only [answerWithin]
    split
    · exact ⟨hs, rfl, rfl⟩
    · exact Infer.guarded_returns (fun s hs => ⟨hs, rfl, rfl⟩) q.key hs
  | succ room ih =>
    simp only [answerWithin]
    split
    · exact ⟨hs, rfl, rfl⟩
    · refine Infer.guarded_returns (fun s hs => ?_) q.key hs
      have hrun := Asking.Steady.answer env q depth s.guard s hs
      obtain ⟨hholds, hdepth, hmaxDepth⟩ := hrun.returns fun q s hs => ih q hs
      exact ⟨hholds, hdepth.trans (congrArg Guard.depth hrun.holds.guard),
        hmaxDepth.trans (congrArg Guard.maxDepth hrun.holds.guard)⟩

/-- Where questions may nest `room` deep, every question is answered, and whoever asked goes on. -/
def Settles (α : Type) (env : Env) (depth room : Nat) : Prop :=
  ∀ (q : Query) (s : Request), s.Holds s.guard depth → s.guard.depth + room = s.guard.maxDepth →
    ∀ {β : Type} (resume : Ty → Request → Run β) (waiting : Waiting α β),
      Steps env ⟨.asks q s resume, waiting⟩
        ⟨resume (answerWithin env room q s).1 (answerWithin env room q s).2, waiting⟩

/-- Where questions are answered, a run comes to its end. -/
theorem Run.Steady.ends {depth room : Nat} (h : Settles α env depth room) {g : Guard Key}
    {run : Run β} (hrun : run.Steady depth g) (hroom : g.depth + room = g.maxDepth)
    (waiting : Waiting α β) :
    Steps env ⟨run, waiting⟩
      ⟨.done (run.finish (answerWithin env room)).1 (run.finish (answerWithin env room)).2,
        waiting⟩ := by
  induction hrun with
  | done hs => exact .refl _
  | @asks g q s resume hs hresume ih =>
    obtain rfl : s.guard = g := hs.guard
    obtain ⟨hholds, hdepth, hmaxDepth⟩ := answerWithin_returns env room q hs
    refine (h q s hs hroom resume waiting).trans (ih _ _ _ hholds ?_)
    rw [hdepth, hmaxDepth, hroom]

theorem Moment.step_entered {q : Query} {s : Request} {guard : Guard Key}
    {resume : Ty → Request → Run β} {waiting : Waiting α β} (hoff : ¬q.isOff env)
    (henter : s.guard.enter q.key = (.entered, guard)) :
    Moment.step env ⟨.asks q s resume, waiting⟩
      = some (some q.key, ⟨q.answer env { s with guard }, .asker q.key resume waiting⟩) := by
  simp only [Moment.step, hoff, henter]
  rfl

theorem Moment.step_refused {q : Query} {s : Request} {a : Admission} {guard : Guard Key}
    {resume : Ty → Request → Run β} {waiting : Waiting α β} (hoff : ¬q.isOff env)
    (ha : a ≠ .entered) (henter : s.guard.enter q.key = (a, guard)) :
    Moment.step env ⟨.asks q s resume, waiting⟩
      = some (none, ⟨resume .unknown { s with guard }, waiting⟩) := by
  simp only [Moment.step, hoff, henter]
  cases a with
  | entered => exact absurd rfl ha
  | _ => rfl

theorem Settles.of_less {depth room : Nat}
    (h : ∀ less, room = less + 1 → Settles α env depth less) : Settles α env depth room := by
  intro q s hs hroom β resume waiting
  unfold answerWithin
  split
  · rename_i hoff
    have hstep : Moment.step env ⟨.asks q s resume, waiting⟩
        = some (none, ⟨resume .unknown s, waiting⟩) := by
      simp only [Moment.step, hoff, if_true]
    exact .head hstep (.refl _)
  · rename_i hoff
    rw [Infer.guarded_apply]
    rcases henter : s.guard.enter q.key with ⟨a, guard⟩
    have hentered : { s with guard }.Holds guard depth := { hs with guard := rfl }
    cases a with
    | entered =>
      obtain ⟨-, hdepth, -, hguard⟩ := Guard.enter_entered henter
      cases room with
      -- Without room the guard is full, and a full guard lets no key in.
      | zero => omega
      | succ less =>
        have hroom' : guard.depth + less = guard.maxDepth := by
          rw [hguard]
          exact (Nat.add_right_comm _ _ _).trans hroom
        have hends := (Asking.Steady.answer env q depth guard _ hentered).ends (h less rfl) hroom'
            (.asker q.key resume waiting)
        exact .head (Moment.step_entered hoff henter) (hends.trans (.head rfl (.refl _)))
    | _ => exact .head (Moment.step_refused hoff (by simp) henter) (.refl _)

theorem settles (depth room : Nat) : Settles α env depth room := by
  induction room with
  | zero => exact .of_less fun less hless => absurd hless (Nat.succ_ne_zero less).symm
  | succ room ih => exact .of_less fun less hless => Nat.succ.inj hless ▸ ih

end LuaTypes
