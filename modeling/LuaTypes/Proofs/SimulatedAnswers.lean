import LuaTypes.Proofs.SimulatedChains

/-!
Mirrored requests ask the same questions and make the same types of the answers. Between a question
and the next one neither request changes its guard, and no chain is half made when they ask.
-/

namespace LuaTypes.Simulation

variable {env : Env} {ix : Index} (S : Simulation env ix)

/-- Runs that ask the same questions and end with the same result. They have the guards `g` until
they ask, and may have any others when they go on. -/
inductive RunMaps {α β : Type} (φ : α → β) (depth : Nat) :
    Guard Key × Guard Key → Run α → Run β → Prop
  | done {g : Guard Key × Guard Key} {a : α} {s t : Request} :
    S.State g depth s t → RunMaps φ depth g (.done a s) (.done (φ a) t)
  | asks {g : Guard Key × Guard Key} {q : Query} {s t : Request} {resume : Ty → Request → Run α}
      {resume' : Ty → Request → Run β} :
    S.State g depth s t →
    (∀ g ty s t, S.State g depth s t →
      RunMaps φ depth g (resume ty s) (resume' (ty.rename S.ρ) t)) →
    RunMaps φ depth g (.asks q s resume) (.asks (q.rename S.ρ) t resume')

theorem RunMaps.bind {α β γ δ : Type} {φ : α → β} {ψ : γ → δ} {depth : Nat}
    {g : Guard Key × Guard Key} {r : Run α} {r' : Run β} {f : α → Asking γ} {f' : β → Asking δ}
    (h : S.RunMaps φ depth g r r')
    (hf : ∀ a g s t, S.State g depth s t → S.RunMaps ψ depth g (f a s) (f' (φ a) t)) :
    S.RunMaps ψ depth g (r.bind f) (r'.bind f') := by
  induction h with
  | done hstate => exact hf _ _ _ _ hstate
  | asks hstate _ ih => exact .asks hstate fun g ty s t h => ih g ty s t h

/-- Computations that ask. -/
def asking : Lifting Asking Asking where
  Maps φ x y := ∀ depth g s t, S.State g depth s t → S.RunMaps φ depth g (x s) (y t)
  pure _ _ := fun _ _ _ _ h => .done h
  bind hx hf := fun depth g s t h =>
    RunMaps.bind S (hx depth g s t h) fun a g s t h => hf a depth g s t h

theorem ofInfer_maps {α β : Type} {φ : α → β} {x : Infer α} {y : Infer β}
    (h : S.infer.Maps φ x y) : S.asking.Maps φ (x : Asking α) (y : Asking β) := by
  intro depth g s t hstate
  obtain ⟨hval, hstate⟩ := h (g, depth) s t hstate
  change S.RunMaps φ depth g (.done (x s).1 (x s).2) (.done (y t).1 (y t).2)
  rw [hval]
  exact .done hstate

theorem ask_maps (q : Query) : S.asking.Maps (Ty.rename S.ρ) (ask q) (ask (q.rename S.ρ)) :=
  fun _ _ _ _ h => .asks h fun _ _ _ _ h => .done h

theorem unionOf_maps {α β : Type} (h : α → β) {f : α → Asking Ty} {g : β → Asking Ty}
    (items : List α) (hf : ∀ a ∈ items, S.asking.Maps (Ty.rename S.ρ) (f a) (g (h a))) :
    S.asking.Maps (Ty.rename S.ρ) (Asking.unionOf env f items)
      (Asking.unionOf (env.withIndex ix) g (items.map h)) := by
  unfold Asking.unionOf
  split
  · exact S.asking.pure (Ty.rename S.ρ) .unknown
  · refine S.asking.foldlM (φ := Ty.rename S.ρ) h items (fun ty a ha => ?_) .unknown
    refine S.asking.bind (hf a ha) fun found => ?_
    rw [Ty.join_rename]
    exact S.asking.pure (Ty.rename S.ρ) (ty.join found)

theorem valueTy_maps (id : NodeId) : S.asking.Maps (Ty.rename S.ρ) (valueTy id) (valueTy id) :=
  S.ask_maps (.value id (.nth 0))

theorem listedTy_maps (values : List NodeId) (index : Nat) :
    S.asking.Maps (Ty.rename S.ρ) (listedTy values index) (listedTy values index) := by
  unfold listedTy
  split
  · exact S.valueTy_maps _
  · exact S.ask_maps (.value _ _)
  · exact S.asking.pure (Ty.rename S.ρ) .unknown

/-! Types of members and globals. -/

theorem assignedTy_maps (target : NodeId) :
    S.asking.Maps (Ty.rename S.ρ) (assignedTy env target)
      (assignedTy (env.withIndex ix) target) := by
  have hunknown := S.asking.pure (Ty.rename S.ρ) .unknown
  unfold assignedTy
  cases env.program.assignTarget? target with
  | none => exact hunknown
  | some place =>
    obtain ⟨stmt, index⟩ := place
    simp only
    cases env.program.node? stmt with
    | none => exact hunknown
    | some node =>
      cases node with
      | assign targets values =>
        refine S.asking.bind (S.ofInfer_maps (S.declaredTy?_maps stmt)) fun declared? => ?_
        simp only [Ty.getD_rename, Ty.isInvalid_rename]
        split
        · exact S.asking.pure (Ty.rename S.ρ) _
        · split
          · exact S.asking.pure (Ty.rename S.ρ) _
          · refine S.asking.bind (S.ask_maps (.listed _ values index)) fun found => ?_
            rw [Ty.join_rename]
            exact S.asking.pure (Ty.rename S.ρ) _
      | _ => exact hunknown

theorem memberTy_maps (d : MemberDecl) :
    S.asking.Maps (Ty.rename S.ρ) (memberTy env d)
      (memberTy (env.withIndex ix) (d.rename S.ρ)) := by
  obtain ⟨name, className, origin, file, offset, stdLib, authoritative⟩ := d
  cases origin with
  | method node | funcDef node | tableField node => exact S.valueTy_maps node
  | docField ty | docTableField ty => exact S.ofInfer_maps (S.expand_maps ty)
  | assign target | globalAssign target => exact S.assignedTy_maps target

theorem globalTy_maps (name : String) :
    S.asking.Maps (Ty.rename S.ρ) (globalTy env name) (globalTy (env.withIndex ix) name) := by
  refine S.asking.bind (S.ask_maps (.globalDecls name)) fun declared => ?_
  rw [Ty.isPrimitive_rename]
  split
  · exact S.asking.pure (Ty.rename S.ρ) declared
  · have hjoin := Ty.join_rename S.ρ declared (.cls (.global name))
    rw [Ty.rename_cls, ClassTy.rename_global] at hjoin
    simp only [hjoin]
    split
    · refine S.asking.bind (S.ofInfer_maps (S.inferRead_maps S.freshCell_maps)) fun cell => ?_
      rw [← ClassTy.rename_globalNamed, ← Ty.rename_cls, Ty.join_rename]
      exact S.asking.pure (Ty.rename S.ρ) _
    · exact S.asking.pure (Ty.rename S.ρ) _

theorem globalDeclsTy_maps (name : String) :
    S.asking.Maps (Ty.rename S.ρ) (globalDeclsTy env name)
      (globalDeclsTy (env.withIndex ix) name) := by
  unfold globalDeclsTy
  rw [S.exact]
  exact S.unionOf_maps (MemberDecl.rename S.ρ) _ fun d _ => S.memberTy_maps d

theorem firstOfEachPlace_rename (seen : List (FileId × Nat)) (decls : List MemberDecl) :
    firstOfEachPlace seen (decls.map (MemberDecl.rename S.ρ))
      = (firstOfEachPlace seen decls).map (MemberDecl.rename S.ρ) := by
  induction decls generalizing seen with
  | nil => rfl
  | cons d rest ih =>
    simp only [List.map_cons, firstOfEachPlace, MemberDecl.rename_file, MemberDecl.rename_offset, ih]
    split <;> rfl

theorem declsTy_maps (use : Use) (ty : Ty) (decls : List MemberDecl) :
    S.asking.Maps (Ty.rename S.ρ) (declsTy env use ty decls)
      (declsTy (env.withIndex ix) use (ty.rename S.ρ) (decls.map (MemberDecl.rename S.ρ))) := by
  induction decls generalizing ty with
  | nil => exact S.asking.pure (Ty.rename S.ρ) ty
  | cons d rest ih =>
    have hmember := S.memberTy_maps d
    have hdone := S.asking.pure (Ty.rename S.ρ)
    have hnext {x y : Asking Ty} (h : S.asking.Maps (Ty.rename S.ρ) x y) :
        S.asking.Maps (Ty.rename S.ρ) (if use = .field then pure ty else ty.join <$> x)
          (if use = .field then pure (ty.rename S.ρ) else (ty.rename S.ρ).join <$> y) := by
      split
      · exact hdone ty
      · exact S.asking.map h fun found => (Ty.join_rename S.ρ ty found).symm
    obtain ⟨name, className, origin, file, offset, stdLib, authoritative⟩ := d
    simp only [List.map_cons]
    cases origin with
    | method node | funcDef node =>
      refine S.asking.bind (hnext hmember) fun ty => ?_
      rw [Ty.isInvalid_rename]
      split
      · exact hdone ty
      · exact ih ty
    | docField documented =>
      refine S.asking.bind hmember fun found => ?_
      simp only [Ty.join_rename, Ty.isInvalid_rename, Ty.each_rename, List.any_map,
        Function.comp_def, Ty.isFunction_rename]
      split
      · split
        · exact hdone _
        · exact ih ty
      · split
        · exact hdone _
        · exact ih _
    | docTableField _ | tableField _ =>
      refine S.asking.bind hmember fun found => ?_
      simp only [Ty.join_rename, Ty.isInvalid_rename]
      split
      · exact hdone _
      · exact ih _
    | assign _ | globalAssign _ =>
      refine S.asking.bind hmember fun found => ?_
      rw [Ty.join_rename]
      exact ih _

theorem fieldTy_maps (c : ClassTy) (name : String) (use : Use) :
    S.asking.Maps (Ty.rename S.ρ) (fieldTy env c name use)
      (fieldTy (env.withIndex ix) (c.rename S.ρ) name use) := by
  have hunknown := S.asking.pure (Ty.rename S.ρ) .unknown
  unfold fieldTy
  rw [ClassTy.rename_name]
  split
  · exact S.globalTy_maps name
  · refine S.asking.bind (S.ofInfer_maps (S.findMember_maps c name)) fun winner? => ?_
    cases winner? with
    | none => exact hunknown
    | some winner =>
      simp only [Option.map_some, MemberDecl.rename_className, S.exact, ← List.map_cons,
        S.firstOfEachPlace_rename]
      split
      · exact hunknown
      · exact S.declsTy_maps use .unknown _

theorem candidateFieldTy_maps (name : String) (use : Use) (c : Candidate) :
    S.asking.Maps (Ty.rename S.ρ) (c.fieldTy env name use)
      ((c.rename S.ρ).fieldTy (env.withIndex ix) name use) := by
  have hfield : S.asking.Maps (Ty.rename S.ρ)
      (if c.cls.name = envWord then globalTy env name else ask (.field c.cls name use))
      (if (c.rename S.ρ).cls.name = envWord then globalTy (env.withIndex ix) name
        else ask (.field (c.rename S.ρ).cls name use)) := by
    rw [Candidate.rename, ClassTy.rename_name]
    split
    · exact S.globalTy_maps name
    · exact S.ask_maps (.field c.cls name use)
  exact S.asking.bind hfield fun found => S.ofInfer_maps (S.instantiate_maps c found)

theorem lookupTy_maps (ty : Ty) (name : String) (use : Use) :
    S.asking.Maps (Ty.rename S.ρ) (lookupTy env ty name use)
      (lookupTy (env.withIndex ix) (ty.rename S.ρ) name use) := by
  refine S.asking.bind (S.ofInfer_maps (S.candidates_maps ty)) fun all => ?_
  have hfiltered (p : String → Bool) : S.asking.Maps (Ty.rename S.ρ)
      (Asking.unionOf env (Candidate.fieldTy env name use) (all.filter fun c => p c.cls.name))
      (Asking.unionOf (env.withIndex ix) (Candidate.fieldTy (env.withIndex ix) name use)
        ((all.map (Candidate.rename S.ρ)).filter fun c => p c.cls.name)) := by
    rw [List.filter_map]
    have hname : (fun c : Candidate => p c.cls.name) ∘ Candidate.rename S.ρ
        = fun c : Candidate => p c.cls.name :=
      funext fun c => congrArg p (ClassTy.rename_name S.ρ c.cls)
    rw [hname]
    exact S.unionOf_maps (Candidate.rename S.ρ) _ fun c _ => S.candidateFieldTy_maps name use c
  simp only [S.findClass?]
  refine S.asking.bind (hfiltered fun cls => (env.index.findClass? cls).any (·.stdLib))
    fun found => ?_
  rw [Ty.isInvalid_rename]
  split
  · refine S.asking.bind (hfiltered fun cls => !(env.index.findClass? cls).any (·.stdLib))
      fun found' => ?_
    rw [Ty.join_rename]
    exact S.asking.pure (Ty.rename S.ρ) _
  · exact S.asking.pure (Ty.rename S.ρ) found

end LuaTypes.Simulation
