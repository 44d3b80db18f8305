import LuaTypes.Proofs.Places
import LuaTypes.Proofs.Room

/-!
Requests come to an end. No walk stops for want of room, every demand is met after finitely many
steps, and the guard keeps its bounds at every step on the way.
-/

namespace LuaTypes

/-- No walk of a request stops for want of room: with more room each goes the same way. -/
structure Env.Roomy (env : Env) : Prop where
  text (id : NodeId) (extra : Nat) :
    env.program.textWithin (env.program.nodes.size + extra) id = env.program.text id
  returns (block : NodeId) (extra : Nat) :
    env.program.returnsWithin (env.program.nodes.size + extra) block = env.program.returnsOf block
  ancestors (id : NodeId) (extra : Nat) :
    env.program.ancestorsWithin (env.program.nodes.size + extra) id = env.program.ancestors id
  aliases (ty : Ty) (extra : Nat) :
    expandWithin env.resolver (env.resolver.aliasWeight + 2 + extra) ty = expand env.resolver ty
  unifier (sig : Signature) (args : List Ty) (extra : Nat) :
    (((sig.pairs args).forM fun pair =>
      Unifier.unifyWithin (maxSubstDepth + 1 + extra) pair.1 pair.2).run (.ofSignature sig)).2
        = sig.unifier args
  chains (c : ClassTy) (extra : Nat) (s : Request) : s.Holds s.guard 0 →
    (buildChain env (maxChainDepth + 1 + extra) c).run [] s
      = (buildChain env (maxChainDepth + 1) c).run [] s

theorem Env.Roomy.of_acyclic {d : Draft} (hacyclic : d.build.Acyclic) {ix : Index} (hix : ix.Built)
    (settings : Settings) (resolveModule? : String → Option FileId) (cancelled : Bool) :
    Env.Roomy ⟨d.build, ix, settings, resolveModule?, cancelled⟩ where
  text id := Program.textWithin_add (hacyclic.fitsBelow id)
  returns block := Program.returnsWithin_add (hacyclic.fitsBelow block)
  ancestors id := Draft.ancestorsWithin_add (Draft.fitsAbove hacyclic id)
  aliases := hix.expandWithin_add cancelled
  unifier := Signature.unifier_add
  chains c extra _ hs := buildChain_run_add c extra hs

variable {env : Env}

theorem Asking.run_bind {α β : Type} (x : Asking α) (f : α → Asking β) :
    (x >>= f).run env = x.run env >>= fun a => (f a).run env :=
  funext fun s => Run.finish_bind (answerWithin env maxInferDepth) (x s) f

theorem Asking.run_mapM {α β : Type} (f : α → Asking β) (items : List α) :
    (items.mapM f).run env = items.mapM fun a => (f a).run env := by
  induction items with
  | nil => rfl
  | cons a rest ih =>
    simp only [List.mapM_cons, run_bind, ih]
    rfl

theorem Asking.run_map {α β : Type} (f : α → β) (x : Asking α) :
    (f <$> x).run env = f <$> x.run env :=
  funext fun s => Run.finish_bind (answerWithin env maxInferDepth) (x s) fun a => pure (f a)

/-- What is done to meet a demand meets it. -/
theorem Demand.run_asking (env : Env) (d : Demand) : (d.asking env).run env = d.perform env := by
  cases d <;> exact Asking.run_map _ _

/-- A demand of an idle request is met. -/
theorem Reached.ends {keys : List Key} {s : Request} (h : Reached env keys (.idle s)) (d : Demand) :
    Steps env ⟨d.asking env s, .caller⟩
      ⟨.done (d.perform env s).1 (d.perform env s).2, .caller⟩ := by
  obtain ⟨hguard, hs⟩ := h.sound
  rw [← d.run_asking env]
  refine (Asking.Steady.demand env d 0 s.guard s hs).ends (settles 0 maxInferDepth) ?_ .caller
  rw [hguard.depth, hguard.maxDepth, List.length_nil, Nat.zero_add]

/-- The guard of a request at work is as deep as keys are in progress, within the limits, and lets
no key in twice. -/
theorem Reached.bounds {keys : List Key} {start : Request} {m : Moment Outcome}
    (h : Reached env keys (.busy start m)) :
    m.guard.depth = m.guard.inProgress.size ∧ m.guard.depth ≤ maxInferDepth ∧
      keys.length ≤ maxInferWork ∧
      ∀ key m', m.step env = some (some key, m') → key ∉ m.guard.inProgress := by
  obtain ⟨-, -, hm⟩ := h.sound
  obtain ⟨hrun, hwaiting, hguard⟩ := hm
  refine ⟨hguard.depth.trans hguard.size.symm, ?_, hguard.budget, fun key m' hstep => ?_⟩
  · rw [hguard.depth]
    exact hguard.bound
  · exact (Moment.Sound.step ⟨hrun, hwaiting, hguard⟩ hstep).1 key rfl

/-- A demand that is met leaves everything in progress as it was. -/
theorem Reached.restores {keys : List Key} {start s : Request} {outcome : Outcome}
    (h : Reached env keys (.busy start ⟨.done outcome s, .caller⟩)) :
    (∀ key, key ∈ s.guard.inProgress ↔ key ∈ start.guard.inProgress) ∧
      s.guard.depth = start.guard.depth ∧ s.chainDepth.depth = start.chainDepth.depth := by
  obtain ⟨⟨before, hstart⟩, hs, hm⟩ := h.sound
  have hguard : s.guard.Watches [] keys.length := hm.guard
  refine ⟨fun key => ?_, ?_, ?_⟩
  · rw [hguard.mem, hstart.mem]
  · rw [hguard.depth, hstart.depth]
  · rw [hs.depth]
    exact hm.run.holds.depth

/-- Requests against a program without cycles, with whatever index, end and keep their bounds: no
walk stops for want of room, every demand is met, the guard stays within its limits at every moment
and lets no key in twice, and what a demand has put in progress is gone once it is met. -/
theorem Draft.requests_end {d : Draft} (hacyclic : d.build.Acyclic) {ix : Index} (hix : ix.Built)
    (settings : Settings) (resolveModule? : String → Option FileId) (cancelled : Bool) :
    let env : Env := ⟨d.build, ix, settings, resolveModule?, cancelled⟩
    env.Roomy ∧
    (∀ keys s, Reached env keys (.idle s) → ∀ q : Demand,
      Steps env ⟨q.asking env s, .caller⟩
        ⟨.done (q.perform env s).1 (q.perform env s).2, .caller⟩) ∧
    (∀ keys start m, Reached env keys (.busy start m) →
      m.guard.depth = m.guard.inProgress.size ∧ m.guard.depth ≤ maxInferDepth ∧
      keys.length ≤ maxInferWork ∧
      ∀ key m', m.step env = some (some key, m') → key ∉ m.guard.inProgress) ∧
    (∀ keys start s outcome, Reached env keys (.busy start ⟨.done outcome s, .caller⟩) →
      (∀ key, key ∈ s.guard.inProgress ↔ key ∈ start.guard.inProgress) ∧
      s.guard.depth = start.guard.depth ∧ s.chainDepth.depth = start.chainDepth.depth) :=
  ⟨.of_acyclic hacyclic hix settings resolveModule? cancelled, fun _ _ h q => h.ends q,
    fun _ _ _ h => h.bounds, fun _ _ _ _ h => h.restores⟩

/-- The program `x = x`, which asks for the type of `x` to answer what `x` is. -/
def Draft.selfAssigned : Draft where
  nodes := #[.nameRef "x", .nameRef "x", .assign [0] [1], .block [2]]
  files := #[⟨"self.lua", 3, false⟩]

theorem Draft.selfAssigned_acyclic : selfAssigned.build.Acyclic := .of_descending (by decide)

theorem Draft.requests_end_selfAssigned :
    let env := Env.ofProgram selfAssigned.build {}
    Steps env ⟨(Demand.infer 1).asking env { memo := {} }, .caller⟩
      ⟨.done ((Demand.infer 1).perform env { memo := {} }).1
        ((Demand.infer 1).perform env { memo := {} }).2, .caller⟩ :=
  (requests_end selfAssigned_acyclic (.ofProgram _) {} _ false).2.1 [] _ (.new {}) (.infer 1)

end LuaTypes
