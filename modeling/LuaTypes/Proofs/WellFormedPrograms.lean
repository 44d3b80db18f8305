import LuaTypes.Proofs.InvariantIndex

/-!
Programs with well-formed comments. Well-formedness is an invariant of types, so every request
against such a program is answered by well-formed types.
-/

namespace LuaTypes

/-- Every type that a parameter is bound to is well formed. -/
abbrev Bindings.WellFormed (b : Bindings) : Prop := b.All Ty.WellFormed

/-- The targets of all aliases are well formed. -/
def Resolver.WellFormed (r : Resolver) : Prop :=
  ∀ name target, r.alias? name = some target → target.WellFormed

/-- The types that the index holds are well formed. -/
abbrev Index.WellFormed (ix : Index) : Prop := ix.Keeps wellFormed

/-- The types in comments are well formed. -/
def Program.WellFormed (p : Program) : Prop :=
  ∀ id doc, p.doc? id = some doc → ∀ ty ∈ doc.types, ty.WellFormed

abbrev Env.WellFormed (env : Env) : Prop := env.Keeps wellFormed

theorem Program.WellFormed.keeps {p : Program} (h : p.WellFormed) : p.Keeps wellFormed :=
  fun id doc hdoc => ⟨h id doc hdoc, fun _ => trivial, fun _ _ _ => trivial⟩

/-- Whatever a body returns, its result is well formed. -/
theorem bodyReturnTy_wellFormed (env : Env) (block : NodeId) :
    wellFormed.asking.Ensures wellFormed.Returns (bodyReturnTy env block) := by
  have hreturned (values : List NodeId) : (returnedTy values).Keeps wellFormed := by
    unfold returnedTy
    split
    · apply wellFormed.asking.imp
        (wellFormed.discipline.ask (q := .value _ .all) trivial)
      exact fun _ hty => hty.1 trivial
    · apply wellFormed.asking.bind
        (wellFormed.asking.mapM _ fun value _ => Env.Keeps.valueTy value)
      intro types htypes
      exact wellFormed.asking.pure (.tuple htypes)
  have hbody : (bodyReturnTy env block).Keeps wellFormed := by
    dsimp only [bodyReturnTy]
    split
    · exact wellFormed.asking.pure (.prim .void)
    · apply wellFormed.discipline.unionOf .unknown
      intro ty hty values _
      exact wellFormed.asking.imp (hreturned values) fun _ hfound => hty.join hfound
  exact wellFormed.asking.imp hbody fun _ hty => hty.returned

theorem Env.WellFormed.intro {p : Program} (h : p.WellFormed) {ix : Index} (hix : ix.WellFormed)
    (settings : Settings) (resolveModule? : String → Option FileId) (cancelled : Bool) :
    Env.WellFormed ⟨p, ix, settings, resolveModule?, cancelled⟩ where
  calls _ _ _ _ := id
  program := h.keeps
  index := hix
  bodies _ _ body _ _ _ := bodyReturnTy_wellFormed _ body.block

theorem Index.WellFormed.ofProgram {p : Program} (h : p.WellFormed) : (ofProgram p).WellFormed := by
  have hready := Keeps.ofProgram h.keeps true
  rwa [← ready_ofProgram p] at hready

end LuaTypes
