import LuaTypes.Proofs.Nested

/-!
Requests that are made side by side. Their guards have other keys in progress, but as many; as long
as neither request asks for a key that only one of them has in progress, the guards let in and
refuse the same, and what one request does the other does as well.
-/

namespace LuaTypes

variable {α β : Type}

/-! What holds throughout an answer. -/

/-- Each question that a run asks, in the state that it asks in, has the property. -/
def Run.Throughout (answer : Query → Infer Ty) (P : Query → Request → Prop) : Run α → Prop
  | done _ _ => True
  | asks q s resume => P q s ∧ (resume (answer q s).1 (answer q s).2).Throughout answer P

theorem Run.throughout_bind {answer : Query → Infer Ty} {P : Query → Request → Prop} {r : Run α}
    {f : α → Asking β} : (r.bind f).Throughout answer P ↔ r.Throughout answer P ∧
      (f (r.finish answer).1 (r.finish answer).2).Throughout answer P := by
  induction r with
  | done a s => exact (true_and _).symm.to_iff
  | asks q s resume ih => exact (and_congr_right fun _ => ih _ _).trans and_assoc.symm

/-- A question has the property, and so has each question that comes up while it is answered, where
questions may nest `room` deep. -/
def Query.Throughout (env : Env) (P : Query → Request → Prop) : Nat → Query → Request → Prop
  | 0, q, s => P q s
  | room + 1, q, s => P q s ∧ (q.isOff env = false → ∀ guard,
      s.guard.enter q.key = (.entered, guard) →
      (q.answer env { s with guard }).Throughout (answerWithin env room) (Throughout env P room))

theorem Query.Throughout.property {env : Env} {P : Query → Request → Prop} {room : Nat} {q : Query}
    {s : Request} (h : q.Throughout env P room s) : P q s := by
  cases room with
  | zero => exact h
  | succ room => exact h.1

/-! Guards. -/

namespace Guard

variable {g g' : Guard Key} {keys keys' : List Key} {key key' : Key}

/-- Guards that differ in the keys in progress at most. -/
structure Alongside (keys keys' : List Key) (g g' : Guard Key) : Prop where
  mem (key : Key) : key ∈ g.inProgress ↔ key ∈ keys
  mem' (key : Key) : key ∈ g'.inProgress ↔ key ∈ keys'
  same : g' = { g with inProgress := g'.inProgress }

/-- Either guard lets its key in, or both refuse them in the same way. -/
theorem Alongside.enter (h : Alongside keys keys' g g') (hkeys : key ∈ keys ↔ key' ∈ keys') :
    ∃ admission after after', g.enter key = (admission, after) ∧
      g'.enter key' = (admission, after') ∧
      if admission = .entered then
        key ∉ keys ∧ Alongside (key :: keys) (key' :: keys') after after'
      else Alongside keys keys' after after' := by
  obtain ⟨hmem, hmem', hsame⟩ := h
  have hcontains : g.inProgress.contains key = g'.inProgress.contains key' := by
    rw [Bool.eq_iff_iff, Std.HashSet.contains_iff_mem, Std.HashSet.contains_iff_mem, hmem, hmem',
      hkeys]
  rw [hsame, Guard.enter, Guard.enter, hcontains]
  split
  · exact ⟨_, _, _, rfl, rfl, hmem, hmem', rfl⟩
  · split
    · exact ⟨_, _, _, rfl, rfl, hmem, hmem', rfl⟩
    · split
      · exact ⟨_, _, _, rfl, rfl, hmem, hmem', rfl⟩
      · rename_i hkey
        have hfresh : key ∉ keys := fun hk => hkey (by
          rw [Std.HashSet.contains_iff_mem, hmem']
          exact hkeys.mp hk)
        refine ⟨_, _, _, rfl, rfl, hfresh, mem_insert_iff hmem key, mem_insert_iff hmem' key', rfl⟩

theorem Alongside.leave (h : Alongside (key :: keys) (key' :: keys') g g') (hkey : key ∉ keys)
    (hkey' : key' ∉ keys') : Alongside keys keys' (g.leave key) (g'.leave key') where
  mem := mem_leave_iff h.mem hkey
  mem' := mem_leave_iff h.mem' hkey'
  same := by
    rw [Guard.leave, Guard.leave, h.same]

end Guard

/-! Requests. -/

/-- The states of two requests that are made side by side, while these keys are in progress. -/
structure Request.Alongside (env : Env) (keys keys' : List Key) (s t : Request) : Prop where
  state : (Simulation.refl env).State (s.guard, t.guard) 0 s t
  guard : Guard.Alongside keys keys' s.guard t.guard

/-- The results agree, and so do the states that are left. -/
def Request.Agree (env : Env) (keys keys' : List Key) (φ : α → β) (r : α × Request)
    (r' : β × Request) : Prop :=
  r'.1 = φ r.1 ∧ Alongside env keys keys' r.2 r'.2

/-- Computations in requests side by side, where questions may nest `room` deep. Every question that
comes up in the second one is supposed to have the property. -/
def sideBySide (env : Env) (P : Query → Request → Prop) (room : Nat) (keys keys' : List Key) :
    Lifting Asking Asking where
  Maps φ x y := ∀ s t, Request.Alongside env keys keys' s t →
    (y t).Throughout (answerWithin env room) (Query.Throughout env P room) →
    Request.Agree env keys keys' φ ((x s).finish (answerWithin env room))
      ((y t).finish (answerWithin env room))
  pure _ _ := fun _ _ h _ => ⟨rfl, h⟩
  bind {_ _ _ _ φ ψ x y f g} hx hf := fun s t h ht => by
    change (Run.bind g (y t)).Throughout _ _ at ht
    change Request.Agree env keys keys' ψ ((Run.bind f (x s)).finish _)
      ((Run.bind g (y t)).finish _)
    rw [Run.finish_bind, Run.finish_bind]
    obtain ⟨hy, hg⟩ := Run.throughout_bind.mp ht
    obtain ⟨hval, hstate⟩ := hx s t h hy
    rw [hval] at hg
    have hrest := hf _ _ _ hstate hg
    rw [← hval] at hrest
    exact hrest

section

variable {env : Env} {P : Query → Request → Prop} {room : Nat} {keys keys' : List Key}
  {key key' : Key} {s t : Request}

theorem Request.Alongside.new (env : Env) (memo : ClassMemo) :
    Alongside env [] [] { memo } { memo } where
  state := .new _ rfl
  guard := by
    have hmem (key : Key) : key ∈ (Guard.ofProfile .inference : Guard Key).inProgress ↔ key ∈ [] :=
      by simp [Guard.ofProfile, Guard.new]
    exact ⟨hmem, hmem, rfl⟩

theorem Request.Alongside.withGuard (h : Alongside env keys keys' s t) {g g' : Guard Key}
    {others others' : List Key} (hguard : Guard.Alongside others others' g g') :
    Alongside env others others' { s with guard := g } { t with guard := g' } where
  state := { h.state with guard := rfl, guard' := rfl }
  guard := hguard

/-- New requests that have entered one key each. -/
theorem Request.Alongside.during (env : Env) (memo : ClassMemo) (key key' : Key) :
    Alongside env [key] [key'] (.during memo [key]) (.during memo [key']) := by
  have hnew := Alongside.new env memo
  have henter (key : Key) : (Guard.ofProfile .inference : Guard Key).enter key
      = (.entered, .during [key]) := Guard.enter_during (List.pairwise_singleton _ _) (by decide)
  have hkeys : key ∈ [] ↔ key' ∈ [] := iff_of_false List.not_mem_nil List.not_mem_nil
  obtain ⟨admission, after, after', hafter, hafter', hguards⟩ := hnew.guard.enter hkeys
  rw [henter] at hafter hafter'
  obtain ⟨rfl, rfl⟩ := Prod.mk.inj hafter
  obtain ⟨-, rfl⟩ := Prod.mk.inj hafter'
  exact hnew.withGuard hguards.2

/-- Both requests answer under their guards, or neither does. -/
theorem Request.Alongside.guarded (h : Alongside env keys keys' s t)
    (hkeys : key ∈ keys ↔ key' ∈ keys') {x y : Infer Ty}
    (hxy : ∀ g g', t.guard.enter key' = (.entered, g') →
      Alongside env (key :: keys) (key' :: keys') { s with guard := g } { t with guard := g' } →
      Agree env (key :: keys) (key' :: keys') id (x { s with guard := g })
        (y { t with guard := g' })) :
    Agree env keys keys' id (Infer.guarded key x s) (Infer.guarded key' y t) := by
  obtain ⟨admission, g, g', henter, henter', hguards⟩ := h.guard.enter hkeys
  rw [Infer.guarded_apply, Infer.guarded_apply, henter, henter']
  cases admission with
  | entered =>
    obtain ⟨hfresh, hguards⟩ := hguards
    obtain ⟨hval, hstate⟩ := hxy g g' henter' (h.withGuard hguards)
    have hleft := hstate.guard.leave hfresh fun hkey => hfresh (hkeys.mpr hkey)
    exact ⟨hval, hstate.withGuard hleft⟩
  | _ => exact ⟨rfl, h.withGuard hguards⟩

/-- Two questions are answered alike if they are in progress alike and what is done to answer them
is alike. -/
theorem ask_sideBySide {q q' : Query} (hoff : q'.isOff env = q.isOff env)
    (hkeys : ∀ t, P q' t → (∀ key ∈ keys', key ∈ t.guard.inProgress) →
      (q.key ∈ keys ↔ q'.key ∈ keys'))
    (hanswer : ∀ less, room = less + 1 →
      (sideBySide env P less (q.key :: keys) (q'.key :: keys')).Maps id (q.answer env)
        (q'.answer env)) :
    (sideBySide env P room keys keys').Maps id (ask q) (ask q') := by
  intro s t h ht
  change Request.Agree env keys keys' id (answerWithin env room q s) (answerWithin env room q' t)
  have hkeys := hkeys t ht.1.property fun key hkey => (h.guard.mem' key).mpr hkey
  cases room with
  | zero =>
    rw [answerWithin, answerWithin, hoff]
    split
    · exact ⟨rfl, h⟩
    · exact h.guarded hkeys fun g g' _ hentered => ⟨rfl, hentered⟩
  | succ less =>
    rw [answerWithin, answerWithin, hoff]
    split
    · exact ⟨rfl, h⟩
    · rename_i hon
      have hon : q'.isOff env = false := hoff.trans (Bool.eq_false_iff.mpr hon)
      exact h.guarded hkeys fun g g' henter hentered =>
        hanswer less rfl _ _ hentered (ht.1.2 hon g' henter)

theorem Simulation.RunMaps.agree
    (hask : ∀ q : Query, (sideBySide env P room keys keys').Maps id (ask q) (ask q)) {φ : α → β}
    {guards : Guard Key × Guard Key} {r : Run α} {r' : Run β}
    (h : (Simulation.refl env).RunMaps φ 0 guards r r')
    (hguards : Guard.Alongside keys keys' guards.1 guards.2)
    (ht : r'.Throughout (answerWithin env room) (Query.Throughout env P room)) :
    Request.Agree env keys keys' φ (r.finish (answerWithin env room))
      (r'.finish (answerWithin env room)) := by
  have hstate {g : Guard Key × Guard Key} {s t : Request} (h : (refl env).State g 0 s t)
      (hg : Guard.Alongside keys keys' g.1 g.2) : Request.Alongside env keys keys' s t :=
    ⟨{ h with guard := rfl, guard' := rfl }, by rwa [h.guard, h.guard']⟩
  induction h with
  | done h => exact ⟨rfl, hstate h hguards⟩
  | @asks g q s t resume resume' h _ ih =>
    have hq : q.rename (refl env).ρ = q := q.rename_id
    rw [hq, Run.Throughout] at ht
    obtain ⟨hval, hnext⟩ := hask q s t (hstate h hguards) ⟨ht.1, trivial⟩
    have hty : (answerWithin env room q s).1.rename (refl env).ρ = (answerWithin env room q t).1 :=
      (Ty.rename_id _).trans hval.symm
    have hrest := ih _ (answerWithin env room q s).1 _ _ hnext.state hnext.guard
    rw [hty] at hrest
    rw [hq]
    exact hrest ht.2

/-- If every question is answered alike, then what requests do alike is done alike side by side. -/
theorem sideBySide_of_mirrored
    (hask : ∀ q : Query, (sideBySide env P room keys keys').Maps id (ask q) (ask q)) {φ : α → β}
    {x : Asking α} {y : Asking β} (h : (Simulation.refl env).asking.Maps φ x y) :
    (sideBySide env P room keys keys').Maps φ x y :=
  fun s t hst ht => (h 0 _ s t hst.state).agree hask hst.guard ht

theorem Simulation.refl_rename (env : Env) : Ty.rename (refl env).ρ = id := funext Ty.rename_id

/-- While nobody asks for the keys that only one of the requests has in progress, every question is
answered alike. -/
theorem ask_sideBySide_self {own own' : List Key}
    (hown : ∀ q t, P q t → (∀ key ∈ own', key ∈ t.guard.inProgress) → q.key ∉ own ∧ q.key ∉ own')
    (q : Query) (shared : List Key) :
    (sideBySide env P room (shared ++ own) (shared ++ own')).Maps id (ask q) (ask q) := by
  have hkeys (q : Query) (shared : List Key) (t : Request) (hP : P q t)
      (hkeys : ∀ key ∈ shared ++ own', key ∈ t.guard.inProgress) :
      q.key ∈ shared ++ own ↔ q.key ∈ shared ++ own' := by
    obtain ⟨hfresh, hfresh'⟩ := hown q t hP fun key hkey => hkeys key (List.mem_append_right _ hkey)
    simp [hfresh, hfresh']
  induction room generalizing q shared with
  | zero => exact ask_sideBySide rfl (hkeys q shared) nofun
  | succ room ih =>
    refine ask_sideBySide rfl (hkeys q shared) fun less hless => ?_
    obtain rfl := Nat.succ.inj hless
    have hmirrored := (Simulation.refl env).answer_maps q
    rw [Simulation.refl_rename, show q.rename (Simulation.refl env).ρ = q from q.rename_id]
      at hmirrored
    exact sideBySide_of_mirrored (fun other => ih other (q.key :: shared)) hmirrored

end

/-! Computations that the guard refuses nothing, with what holds throughout them. -/

namespace Asking

variable {env : Env} {P : Query → Request → Prop} {keys : List Key} {a : α} {b : β} {n m : Nat}

/-- While the keys are in progress, the computation gives the value after so many questions, each of
them with the property, if the budget lasts. -/
structure YieldsWith (env : Env) (P : Query → Request → Prop) (keys : List Key) (x : Asking α)
    (a : α) (n : Nat) : Prop where
  yields : x.Yields env keys a n
  throughout (s : Request) : s.guard.Open keys → s.guard.work + n ≤ maxInferWork →
    (x s).Throughout (answerWithin env (maxInferDepth - keys.length))
      (Query.Throughout env P (maxInferDepth - keys.length))

namespace YieldsWith

theorem pure (a : α) : (Pure.pure a : Asking α).YieldsWith env P keys a 0 :=
  ⟨.pure a, fun _ _ _ => trivial⟩

theorem bind {x : Asking α} {f : α → Asking β} (hx : x.YieldsWith env P keys a n)
    (hf : (f a).YieldsWith env P keys b m) : (x >>= f).YieldsWith env P keys b (n + m) where
  yields := hx.yields.bind hf.yields
  throughout s hopen hwork := by
    obtain ⟨g, hfinish, hopen', hspent⟩ := hx.yields s hopen (by omega)
    refine Run.throughout_bind.mpr ⟨hx.throughout s hopen (by omega), ?_⟩
    rw [hfinish]
    exact hf.throughout _ hopen' (by simp only; omega)

theorem ask (hcancelled : env.cancelled = false) {q : Query} {ty : Ty} (hfresh : q.key ∉ keys)
    (hroom : keys.length < maxInferDepth) (hP : ∀ s : Request, s.guard.Open keys → P q s)
    (h : (q.answer env).YieldsWith env P (q.key :: keys) ty n) :
    (ask q).YieldsWith env P keys ty (1 + n) where
  yields := .ask hcancelled hfresh hroom h.yields
  throughout s hopen hwork := by
    have hlevel : maxInferDepth - keys.length = maxInferDepth - (q.key :: keys).length + 1 := by
      rw [List.length_cons]
      omega
    obtain ⟨-, hentered, hspent⟩ := hopen.enter hfresh hroom (by omega)
    rw [hlevel]
    refine ⟨⟨hP s hopen, fun _ guard henter => ?_⟩, trivial⟩
    obtain rfl : (s.guard.enter q.key).2 = guard := congrArg Prod.snd henter
    exact h.throughout _ hentered (by simp only [hspent]; omega)

/-- A question that a new request is made for. -/
theorem request {q : Query} {ty : Ty} (h : (LuaTypes.ask q).YieldsWith env P [] ty n)
    (hn : n ≤ maxInferWork) (memo : ClassMemo) : q.Throughout env P maxInferDepth { memo } := by
  have hbudget : 0 + n ≤ maxInferWork := by rwa [Nat.zero_add]
  exact (h.throughout { memo } Guard.open_new hbudget).1

end YieldsWith

end Asking

end LuaTypes
