import Mathlib.Data.List.TakeWhile
import LuaTypes.Json.Token

/-!
Natural numbers in JSON texts. One that fits in 64 bits is read from its decimal digits as it was
written.
-/

namespace LuaTypes.Json

/-! Decimal digits. -/

theorem digitsValue_toDigits (n : Nat) : digitsValue (Nat.toDigits 10 n) = n := by
  have h := Nat.ofDigitChars_ten_toDigits (n := n)
  rwa [Nat.ofDigitChars_eq_foldl] at h

/-- Only zero begins with zero. -/
theorem head?_toDigits {n : Nat} (h : 0 < n) : (Nat.toDigits 10 n).head? ≠ some '0' := by
  induction n using Nat.strongRecOn with
  | ind n ih =>
    by_cases hlt : n < 10
    · rw [Nat.toDigits_of_lt_base hlt, List.head?_cons, ne_eq, Option.some_inj,
        Nat.digitChar_eq_zero]
      omega
    · rw [Nat.toDigits_of_base_le (by omega) (by omega), List.head?_append]
      have hfirst := ih (n / 10) (by omega) (by omega)
      cases hhead : (Nat.toDigits 10 (n / 10)).head? with
      | none => exact absurd (List.head?_eq_none_iff.mp hhead) Nat.toDigits_ne_nil
      | some c => rwa [hhead] at hfirst

theorem isDigit_of_mem_toDigits {n : Nat} {c : Char} (h : c ∈ Nat.toDigits 10 n) :
    c.isDigit = true :=
  Nat.isDigit_of_mem_toDigits (by omega) (by omega) h

/-! What digits are made of. -/

section

variable {c : Char} (h : c.isDigit = true)

include h

theorem ne_of_isDigit {d : Char} (hd : d.isDigit = false) : c ≠ d := by
  rintro rfl
  rw [h] at hd
  cases hd

theorem isNumberChar_of_isDigit : isNumberChar c = true := by
  simp [isNumberChar, h]

theorem isBlank_of_isDigit : Token.isBlank c = false := by
  simp [Token.isBlank, ne_of_isDigit h]

end

/-! Reading digits. -/

namespace NumberText

/-- A number of which nothing but digits is written. -/
def ofDigits (digits : List Char) : NumberText := ⟨false, digits, none, none⟩

theorem ofChars?_digits {digits : List Char} (hdigits : ∀ c ∈ digits, c.isDigit = true)
    (hwhole : wholeOf digits = some digits) : ofChars? digits = some (ofDigits digits) := by
  have hne (d : Char) (hd : d.isDigit = false) : ∀ c ∈ digits, c ≠ d := fun c hc =>
    ne_of_isDigit (hdigits c hc) hd
  have hmantissa : digits.takeWhile (!(fun c : Char => c == 'e' || c == 'E') ·) = digits := by
    refine List.takeWhile_eq_self_iff.mpr fun c hc => ?_
    simp [hne 'e' rfl c hc, hne 'E' rfl c hc]
  have hexponent : digits.dropWhile (!(fun c : Char => c == 'e' || c == 'E') ·) = [] := by
    refine List.dropWhile_eq_nil_iff.mpr fun c hc => ?_
    simp [hne 'e' rfl c hc, hne 'E' rfl c hc]
  have hpoint : digits.takeWhile (· != '.') = digits :=
    List.takeWhile_eq_self_iff.mpr fun c hc => by simp [hne '.' rfl c hc]
  have hfraction : digits.dropWhile (· != '.') = [] :=
    List.dropWhile_eq_nil_iff.mpr fun c hc => by simp [hne '.' rfl c hc]
  have hminus (cs : List Char) : digits ≠ '-' :: cs := by
    rintro rfl
    exact hne '-' rfl '-' List.mem_cons_self rfl
  rw [ofChars?]
  · simp only [hmantissa, hexponent, hpoint, hfraction]
    simp [hwhole, ofDigits]
  · exact hminus

theorem le_foldl (digits : List Char) (v : Nat) :
    v ≤ digits.foldl (fun n c => 10 * n + digitValue c) v := by
  induction digits generalizing v with
  | nil => exact le_rfl
  | cons c rest ih => exact le_trans (by omega) (ih (10 * v + digitValue c))

/-- Digits of a number that fits all fit. -/
theorem takeFitting_eq (digits : List Char) (v : Nat)
    (h : digits.foldl (fun n c => 10 * n + digitValue c) v < wordValues) :
    takeFitting v digits = (digits.foldl (fun n c => 10 * n + digitValue c) v, []) := by
  induction digits generalizing v with
  | nil => rfl
  | cons c rest ih =>
    rw [List.foldl_cons] at h ⊢
    rw [takeFitting, if_pos (lt_of_le_of_lt (le_foldl rest _) h), ih _ h]

theorem isTooLarge_ofDigits {digits : List Char} (h : digitsValue digits < wordValues) :
    (ofDigits digits).isTooLarge = false := by
  have hfit : takeFitting 0 digits = (digitsValue digits, []) := takeFitting_eq digits 0 h
  simp [isTooLarge, leading, ofDigits, hfit, takeFitting]

end NumberText

open NumberText (wordValues)

theorem Token.ofNumber?_toDigits {n : Nat} (h : n < wordValues) :
    ofNumber? (Nat.toDigits 10 n) = some (.int n) := by
  have hdigits (c : Char) (hc : c ∈ Nat.toDigits 10 n) := isDigit_of_mem_toDigits hc
  have hwhole : wholeOf (Nat.toDigits 10 n) = some (Nat.toDigits 10 n) := by
    have hall : allDigits (Nat.toDigits 10 n) = some (Nat.toDigits 10 n) := by
      simpa [allDigits] using hdigits
    rcases Nat.eq_zero_or_pos n with rfl | hpos
    · rfl
    · simp [wholeOf, hall, head?_toDigits hpos]
  have hvalue := digitsValue_toDigits n
  have hlarge : (NumberText.ofDigits (Nat.toDigits 10 n)).isTooLarge = false :=
    NumberText.isTooLarge_ofDigits (by rwa [hvalue])
  have hinteger : (NumberText.ofDigits (Nat.toDigits 10 n)).integer? = some (n : Int) := by
    simp [NumberText.integer?, NumberText.ofDigits, NumberText.isInteger, hvalue, h]
  simp [ofNumber?, NumberText.ofChars?_digits hdigits hwhole, hlarge, hinteger]

end LuaTypes.Json
