import LuaTypes.Proofs.UnfoldingOrder

/-!
Aliases expand alike in equal types. As each name is expanded only where it is met first, this holds
as long as no two members of a union compete for a name, and equal classes stand for the same.
-/

namespace LuaTypes

/-- Expanding the aliases of equal types gives equal types, if classes in them that equal each other
stand for the same alias and their unions are untangled. -/
theorem Resolver.Counted.expandAliases_same {r : Resolver} (h : r.Counted) (memo : ClassMemo)
    {a b : Ty} (ha : a.WellFormed) (hb : b.WellFormed) (hsame : (a == b) = true)
    (halike : StandAlike (ClassTy.standsFor r memo) a b)
    (horderly : a.Orderly (ClassTy.standsFor r memo)) :
    let (expanded, memo') := expandAliases r a memo
    (expanded == (expandAliases r b memo').1) = true := by
  have hreads : memo.ReadsAs r memo := fun _ => rfl
  obtain ⟨hval, hnext⟩ := expandAliases_unfolds h hreads a
  obtain ⟨hval', -⟩ := expandAliases_unfolds h hnext b
  have hunfold := (h.aliases memo).unfold_same maxSubstDepth ha hb hsame halike horderly [] []
    fun _ => Iff.rfl
  change ((expandAliases r a memo).1 == (expandAliases r b (expandAliases r a memo).2).1) = true
  rw [hval, hval']
  exact hunfold.1

/-! Two classes of which one stands for the other, beside an array of a third. -/

namespace Resolver

/-- A resolver with three aliases, of which the first names the second. -/
def layered : Resolver where
  details? _ := none
  alias? name :=
    if name = "Foo" then some (.union [.cls (.declared "Bar" {}), .nil])
    else if name = "Bar" then some (.array .number)
    else if name = "Baz" then some .string
    else none
  aliasWeight := 1
  ready := true
  cancelled := false

def foo : Ty := .cls (.declared "Foo" {})

def bar : Ty := .cls (.declared "Bar" {})

def bazs : Ty := .array (.cls (.declared "Baz" {}))

theorem layered_alias? {name : String} {target : Ty} (h : layered.alias? name = some target) :
    target = .union [bar, .nil] ∨ target = .array .number ∨ target = .string := by
  simp only [layered] at h
  grind [bar]

theorem layered_counted : layered.Counted where
  names := by
    refine ⟨["Bar"], le_rfl, fun name target halias => ?_⟩
    rcases layered_alias? halias with rfl | rfl | rfl
    · exact List.Subset.refl _
    · exact List.nil_subset _
    · exact List.nil_subset _
  wellFormed name target halias := by
    rcases layered_alias? halias with rfl | rfl | rfl
    · exact .pair (.cls_of_docFields rfl) (.prim .nil) rfl
    · exact .array (.prim .number)
    · exact .prim .string

/-- What lies in the union of the two classes and the array, once all classes are laid open. -/
def layeredEntries : List (Option String × Ty) :=
  [(none, bazs), (none, foo), (none, bar), (some "Foo", bar), (some "Foo", .nil),
    (some "Bar", .array .number)]

theorem cls_of_mem_layeredEntries {source : Option String} {c : ClassTy}
    (h : (source, Ty.cls c) ∈ layeredEntries) :
    c = .declared "Foo" {} ∨ c = .declared "Bar" {} := by
  simp only [layeredEntries, List.mem_cons, Prod.mk.injEq, List.not_mem_nil, or_false] at h
  rcases h with ⟨-, h⟩ | ⟨-, h⟩ | ⟨-, h⟩ | ⟨-, h⟩ | ⟨-, h⟩ | ⟨-, h⟩
  · cases h
  · exact .inl (Ty.cls.inj h)
  · exact .inr (Ty.cls.inj h)
  · exact .inr (Ty.cls.inj h)
  · cases h
  · cases h

section

variable {source : Option String} {part : Ty}
  (h : LaidOut (ClassTy.standsFor layered {}) (fun _ => True) [bazs, foo, bar] source part)

include h

theorem mem_layeredEntries : (source, part) ∈ layeredEntries := by
  induction h with
  | member hm =>
    simp only [List.mem_cons, List.not_mem_nil, or_false] at hm
    rcases hm with rfl | rfl | rfl <;> simp [layeredEntries]
  | @target source c target m _ _ hstands hm ih =>
    rcases cls_of_mem_layeredEntries ih with rfl | rfl
    · obtain rfl : Ty.union [bar, .nil] = target := Option.some_inj.mp hstands
      rcases List.mem_pair.mp hm with rfl | rfl <;> simp [layeredEntries, ClassTy.declared]
    · obtain rfl : Ty.array .number = target := Option.some_inj.mp hstands
      obtain rfl := List.mem_singleton.mp hm
      simp [layeredEntries, ClassTy.declared]

/-- Only the array has a use for a name, apart from the classes. -/
theorem layered_uses (halone : ∀ c, part = .cls c → ¬True) {name : String}
    (huses : Uses (ClassTy.standsFor layered {}) source part name) :
    (source, part) = (none, bazs) ∧ name = "Baz" := by
  obtain ⟨-, c, hmeets, rfl⟩ := huses
  have hpart := mem_layeredEntries h
  simp only [layeredEntries, List.mem_cons, Prod.mk.injEq, List.not_mem_nil, or_false] at hpart
  rcases hpart with ⟨rfl, rfl⟩ | ⟨-, rfl⟩ | ⟨-, rfl⟩ | ⟨-, rfl⟩ | ⟨-, rfl⟩ | ⟨-, rfl⟩
  · refine ⟨rfl, ?_⟩
    cases hmeets with
    | entered hc =>
      simp only [bazs, Ty.array_enters, Ty.cls_enters, reduceCtorEq, false_or, Ty.cls.injEq] at hc
      rw [hc]
      rfl
    | @target _ d _ target hd _ hstands hrest =>
      simp only [bazs, Ty.array_enters, Ty.cls_enters, reduceCtorEq, false_or, Ty.cls.injEq] at hd
      obtain rfl := hd
      obtain rfl : Ty.string = target := Option.some_inj.mp hstands
      obtain ⟨d, hd⟩ := hrest.exists_enters
      simp [Ty.string] at hd
  · exact absurd trivial (halone _ rfl)
  · exact absurd trivial (halone _ rfl)
  · exact absurd trivial (halone _ rfl)
  · obtain ⟨d, hd⟩ := hmeets.exists_enters
    simp [Ty.nil] at hd
  · obtain ⟨d, hd⟩ := hmeets.exists_enters
    simp [Ty.number] at hd

end

theorem layered_untangled :
    Untangled (ClassTy.standsFor layered {}) (fun _ => True) [bazs, foo, bar] where
  alike hc hd _ _ hname := by
    rcases cls_of_mem_layeredEntries (mem_layeredEntries hc) with rfl | rfl <;>
      rcases cls_of_mem_layeredEntries (mem_layeredEntries hd) with rfl | rfl <;>
      first | rfl | exact absurd hname (by decide)
  apart hpart hpart' halone halone' hdiffers name hneeds huses :=
    hdiffers ((layered_uses hpart halone hneeds.uses).1.trans
      (layered_uses hpart' halone' huses).1.symm)
  aside {source source' part c} hpart hc halone _ := by
    have hname : c.name ≠ "Baz" := by
      rcases cls_of_mem_layeredEntries (mem_layeredEntries hc) with rfl | rfl <;> decide
    exact ⟨fun hneeds => hname (layered_uses hpart halone hneeds.uses).2,
      fun _ huses => hname (layered_uses hpart halone huses).2⟩

/-- The union of two classes and an array, and the same union in another order. -/
theorem Counted.expandAliases_same_layered :
    let a : Ty := .union [bazs, foo, bar]
    let b : Ty := .union [bar, bazs, foo]
    let (expanded, memo) := expandAliases layered a {}
    (expanded == (expandAliases layered b memo).1) = true := by
  have hfoo : foo.WellFormed := .cls_of_docFields rfl
  have hbar : bar.WellFormed := .cls_of_docFields rfl
  have hbazs : bazs.WellFormed := .array (.cls_of_docFields rfl)
  have ha : (Ty.union [bazs, foo, bar]).WellFormed :=
    show (Ty.unionAll [bazs, foo, bar]).WellFormed from .unionAll (by simp [*])
  have hb : (Ty.union [bar, bazs, foo]).WellFormed :=
    show (Ty.unionAll [bar, bazs, foo]).WellFormed from .unionAll (by simp [*])
  have hsame : (Ty.union [bazs, foo, bar] == Ty.union [bar, bazs, foo]) = true := rfl
  refine layered_counted.expandAliases_same {} ha hb hsame ?_ ?_
  · intro c d hc hd hcd
    simp only [bazs, foo, bar, Ty.union_enters, Ty.array_enters, Ty.cls_enters, reduceCtorEq,
      List.mem_cons, List.not_mem_nil, or_false, false_or, exists_eq_or_imp, exists_eq_left,
      Ty.cls.injEq] at hc hd
    rcases hc with rfl | rfl | rfl <;> rcases hd with rfl | rfl | rfl <;>
      first | rfl | exact absurd hcd (by decide)
  · intro members hmembers
    simp only [bazs, foo, bar, Ty.union_enters, Ty.array_enters, Ty.cls_enters, reduceCtorEq,
      List.mem_cons, List.not_mem_nil, or_false, exists_eq_or_imp, exists_eq_left,
      Ty.union.injEq] at hmembers
    exact ⟨fun _ => True, hmembers ▸ layered_untangled⟩

end Resolver

/-- A resolver with one alias. -/
def Resolver.numeric (name : String) : Resolver where
  details? _ := none
  alias? other := if other = name then some .number else none
  aliasWeight := 0
  ready := true
  cancelled := false

/-- Two members of a union compete for a name, and equal classes stand for different aliases. -/
theorem Resolver.numeric_expandAliases_differ :
    let foo : Ty := .cls (.declared "Foo" {})
    let renamed : Ty := .cls (.declared "Foo" { alias? := some "Num" })
    let a : Ty := .union [.array foo, foo]
    let b : Ty := .union [foo, .array foo]
    (a.WellFormed ∧ b.WellFormed ∧ (a == b) = true ∧
      ((expandAliases (numeric "Foo") a {}).1 == (expandAliases (numeric "Foo") b {}).1) = false) ∧
    (foo.WellFormed ∧ renamed.WellFormed ∧ (foo == renamed) = true ∧
      ((expandAliases (numeric "Num") foo {}).1
        == (expandAliases (numeric "Num") renamed {}).1) = false) := by
  intro foo renamed a b
  have hfoo : foo.WellFormed := .cls_of_docFields rfl
  refine ⟨⟨.pair hfoo.array hfoo rfl, .pair hfoo hfoo.array rfl, rfl, ?_⟩,
    hfoo, .cls_of_docFields rfl, rfl, ?_⟩
  · rfl
  · rfl

end LuaTypes
