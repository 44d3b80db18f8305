import Mathlib.Data.List.Nodup
import LuaTypes.OrderedMap

/-!
Keys of ordered maps: which there are, and what is found under them after a change.
-/

namespace LuaTypes

namespace OrderedMap

variable {α : Type}

theorem isSome_get?_iff (m : OrderedMap α) (key : String) :
    (m.get? key).isSome ↔ key ∈ m.entries.map (·.1) := by
  rw [get?, List.lookup_isSome_iff, List.mem_map]
  constructor
  · rintro ⟨e, he, hkey⟩
    exact ⟨e, he, (beq_iff_eq.mp hkey).symm⟩
  · rintro ⟨e, he, hkey⟩
    exact ⟨e, he, beq_iff_eq.mpr hkey.symm⟩

theorem keys_insert (m : OrderedMap α) (key : String) (value : α) :
    (m.insert key value).entries.map (·.1)
      = if (m.get? key).isSome then m.entries.map (·.1) else m.entries.map (·.1) ++ [key] := by
  simp only [isSome_get?_iff, insert]
  induction m.entries with
  | nil => rfl
  | cons e es ih =>
    rw [insertInto]
    by_cases hkey : e.1 = key
    · simp [hkey]
    · have hkey' : ¬key = e.1 := fun heq => hkey heq.symm
      simp only [hkey, if_false, List.map_cons, ih, List.mem_cons, hkey', false_or]
      split <;> rfl

theorem eq_or_mem_of_mem_insert {m : OrderedMap α} {key : String} {value : α} {e : String × α}
    (h : e ∈ (m.insert key value).entries) : e = (key, value) ∨ e ∈ m.entries := by
  obtain ⟨entries⟩ := m
  simp only [insert] at h ⊢
  induction entries with
  | nil => exact .inl (List.mem_singleton.mp h)
  | cons first rest ih =>
    rw [insertInto] at h
    split at h
    · exact (List.mem_cons.mp h).imp_right (List.mem_cons_of_mem first)
    · rcases List.mem_cons.mp h with rfl | h
      · exact .inr List.mem_cons_self
      · exact (ih h).imp_right (List.mem_cons_of_mem first)

theorem get?_modify (m : OrderedMap α) (key other : String) (f : α → α) :
    (m.modify key f).get? other = if other = key then (m.get? other).map f else m.get? other := by
  by_cases hkey : other = key
  · subst hkey
    rw [if_pos rfl, modify]
    cases hget : m.get? other with
    | none => exact hget
    | some value => rw [get?_insert, if_pos rfl, Option.map_some]
  · rw [if_neg hkey, modify]
    split
    · rw [get?_insert, if_neg hkey]
    · rfl

/-- No key has two entries. -/
def Distinct (m : OrderedMap α) : Prop := (m.entries.map (·.1)).Nodup

namespace Distinct

variable {m : OrderedMap α} (h : m.Distinct)

include h

theorem insert (key : String) (value : α) : (m.insert key value).Distinct := by
  rw [Distinct, keys_insert]
  split
  · exact h
  · rename_i hnew
    rw [isSome_get?_iff] at hnew
    exact List.Nodup.append h (List.nodup_singleton key) (List.disjoint_singleton.mpr hnew)

theorem modify (key : String) (f : α → α) : (m.modify key f).Distinct := by
  rw [OrderedMap.modify]
  split
  · exact h.insert key _
  · exact h

/-- A value is found after filtering if it was found before and passes. -/
theorem get?_filter (p : α → Bool) (key : String) :
    (m.filter p).get? key = (m.get? key).filter p := by
  obtain ⟨entries⟩ := m
  simp only [Distinct, OrderedMap.filter, OrderedMap.get?] at h ⊢
  induction entries with
  | nil => rfl
  | cons e entries ih =>
    obtain ⟨other, value⟩ := e
    obtain ⟨hnew, hrest⟩ := List.nodup_cons.mp h
    rw [List.filter_cons, List.lookup_cons]
    by_cases hkey : key = other
    · subst hkey
      have hnone : entries.lookup key = none := by
        have hsome := mt (isSome_get?_iff ⟨entries⟩ key).mp hnew
        exact Option.not_isSome_iff_eq_none.mp hsome
      have hlast := ih hrest
      rw [hnone, Option.filter_none] at hlast
      rw [beq_self_eq_true, Option.filter_some]
      cases hp : p value with
      | true => simp
      | false => exact hlast
    · rw [beq_false_of_ne hkey]
      cases hp : p value with
      | true => simpa [hp, List.lookup_cons, beq_false_of_ne hkey] using ih hrest
      | false => simpa [hp] using ih hrest

end Distinct

end OrderedMap

end LuaTypes
