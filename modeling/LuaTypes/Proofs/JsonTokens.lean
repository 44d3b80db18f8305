import LuaTypes.Json.Writer
import LuaTypes.Proofs.JsonNumbers

/-!
The tokens of a value that was written. Each token is read as it was written, whatever comes after
it, but that a number ends before the next one begins.
-/

namespace LuaTypes.Json

mutual

/-- The tokens that a value is written with. -/
def tokens : Json → List Token
  | .null => [.null]
  | .bool b => [.bool b]
  | .int i => [.int i]
  | .real m e => [.real m e]
  | .str s => [.text s]
  | .arr [] => [.openItems, .closeItems]
  | .arr (j :: rest) => .openItems :: (j.tokens ++ moreItems rest ++ [.closeItems])
  | .obj [] => [.openMembers, .closeMembers]
  | .obj ((key, j) :: rest) =>
    .openMembers :: .text key :: .colon :: (j.tokens ++ moreMembers rest ++ [.closeMembers])
termination_by structural j => j

/-- The tokens of further items of an array. -/
def moreItems : List Json → List Token
  | [] => []
  | j :: rest => .comma :: (j.tokens ++ moreItems rest)
termination_by structural items => items

def moreMembers : List (String × Json) → List Token
  | [] => []
  | (key, j) :: rest => .comma :: .text key :: .colon :: (j.tokens ++ moreMembers rest)
termination_by structural members => members

end

/-- The numbers in the value are natural numbers that fit in 64 bits. -/
inductive Plain : Json → Prop
  | null : Plain .null
  | bool (b : Bool) : Plain (.bool b)
  | int {n : Nat} : n < NumberText.wordValues → Plain (.int n)
  | str (s : String) : Plain (.str s)
  | arr {items : List Json} : (∀ j ∈ items, j.Plain) → Plain (.arr items)
  | obj {members : List (String × Json)} : (∀ m ∈ members, m.2.Plain) → Plain (.obj members)

namespace Token

/-- No number goes on here. -/
def Ends (cs : List Char) : Prop := ∀ c ∈ cs.head?, isNumberChar c = false

theorem Ends.append {as bs : List Char} (ha : Ends as) (hb : Ends bs) : Ends (as ++ bs) := by
  cases as with
  | nil => exact hb
  | cons a as => exact ha

/-- These characters are read as these tokens. -/
def Lexes (cs : List Char) (ts : List Token) : Prop :=
  ∀ rest, Ends rest → list? (cs ++ rest) = (list? rest).map (ts ++ ·)

namespace Lexes

variable {as bs : List Char} {ts us : List Token}

theorem nil : Lexes [] [] := fun rest _ => by simp

theorem append (ha : Lexes as ts) (hb : Lexes bs us) (hends : Ends bs) :
    Lexes (as ++ bs) (ts ++ us) := by
  intro rest hrest
  rw [List.append_assoc, ha _ (hends.append hrest), hb rest hrest, Option.map_map]
  congr 1
  funext vs
  exact (List.append_assoc ts us vs).symm

/-- A character that is a token by itself. -/
theorem cons {c : Char} {t : Token} (hc : ∀ rest, list? (c :: rest) = (list? rest).map (t :: ·))
    (hb : Lexes bs us) : Lexes (c :: bs) (t :: us) := by
  intro rest hrest
  rw [List.cons_append, hc, hb rest hrest, Option.map_map]
  rfl

end Lexes

/-! Texts. -/

/-- What a code below the first printable character is written as. -/
theorem hex4?_hexDigit {n : Nat} (h : n < 0x20) :
    hex4? '0' '0' (hexDigit (n / 16)) (hexDigit (n % 16)) = some n := by
  have hall : ∀ n < 0x20, hex4? '0' '0' (hexDigit (n / 16)) (hexDigit (n % 16)) = some n := by
    decide
  exact hall n h

section

variable (done rest : List Char)

theorem textFrom_letter {e c : Char} (he : unescape? e = some c) (hu : e ≠ 'u') :
    textFrom (some done) ('\\' :: e :: rest) = textFrom (some (c :: done)) rest := by
  rw [textFrom, he]
  · rfl
  · exact fun _ _ _ _ _ h => absurd h hu

theorem textFrom_code {n : Nat} (h : n < 0x20) :
    textFrom (some done)
      ('\\' :: 'u' :: '0' :: '0' :: hexDigit (n / 16) :: hexDigit (n % 16) :: rest)
      = textFrom (some (Char.ofNat n :: done)) rest := by
  have hhigh : isHigh n = false := by
    simp only [isHigh, Bool.and_eq_false_iff, decide_eq_false_iff_not]
    omega
  have hlow : isLow n = false := by
    simp only [isLow, Bool.and_eq_false_iff, decide_eq_false_iff_not]
    omega
  rw [textFrom, hex4?_hexDigit h]
  simp [hhigh, hlow]

theorem textFrom_plain {c : Char} (hquote : c ≠ '"') (hescape : c ≠ '\\')
    (hprintable : ¬c.toNat < 0x20) :
    textFrom (some done) (c :: rest) = textFrom (some (c :: done)) rest := by
  rw [textFrom, if_neg hprintable]
  · rfl
  · exact hquote
  · exact fun _ _ _ _ _ h => absurd h hescape
  · exact fun _ _ h => absurd h hescape

/-- A character is read from what it was written as. -/
theorem textFrom_escapeChar (c : Char) :
    textFrom (some done) (escapeChar c ++ rest) = textFrom (some (c :: done)) rest := by
  unfold escapeChar
  split
  case h_8 hquote hescape _ _ _ _ _ =>
    split
    · rename_i hcode
      have hread := textFrom_code done rest hcode
      rwa [Char.ofNat_toNat] at hread
    · rename_i hprintable
      exact textFrom_plain done rest hquote hescape hprintable
  all_goals exact textFrom_letter done rest rfl (by decide)

end

theorem textFrom_flatMap (cs done rest : List Char) :
    textFrom (some done) (cs.flatMap escapeChar ++ '"' :: rest)
      = some (.text (String.ofList (done.reverse ++ cs)), rest) := by
  induction cs generalizing done with
  | nil => rw [List.flatMap_nil, List.nil_append, textFrom, List.append_nil]; rfl
  | cons c cs ih =>
    rw [List.flatMap_cons, List.append_assoc, textFrom_escapeChar, ih, List.reverse_cons,
      List.append_assoc, List.singleton_append]

theorem Lexes.quote (s : String) : Lexes (quote s).toList [.text s] := by
  intro rest _
  have hread := textFrom_flatMap s.toList [] rest
  rw [List.reverse_nil, List.nil_append, String.ofList_toList] at hread
  have hchars : (Json.quote s).toList ++ rest
      = '"' :: (s.toList.flatMap escapeChar ++ '"' :: rest) := by
    simp [Json.quote]
  rw [hchars, list?]
  split
  · rename_i t rest' hfound
    rw [hread] at hfound
    obtain ⟨rfl, rfl⟩ := Prod.mk.inj (Option.some_inj.mp hfound)
    rfl
  · rename_i hnone
    rw [hread] at hnone
    cases hnone

/-! Numbers. -/

theorem Ends.span {cs rest : List Char} (hcs : ∀ c ∈ cs, isNumberChar c = true)
    (hrest : Ends rest) :
    (cs ++ rest).takeWhile isNumberChar = cs ∧ (cs ++ rest).dropWhile isNumberChar = rest := by
  rw [List.takeWhile_append_of_pos hcs, List.dropWhile_append_of_pos hcs]
  cases rest with
  | nil => simp
  | cons c rest => simp [hrest c rfl]

theorem Lexes.int {n : Nat} (h : n < NumberText.wordValues) :
    Lexes (toString (n : Int)).toList [.int n] := by
  intro rest hrest
  have hdigits (c : Char) (hc : c ∈ Nat.toDigits 10 n) := isDigit_of_mem_toDigits hc
  have hnumber := ofNumber?_toDigits h
  have hchars : (toString (n : Int)).toList = Nat.toDigits 10 n := Nat.toList_repr
  rw [hchars]
  cases hcons : Nat.toDigits 10 n with
  | nil => exact absurd hcons Nat.toDigits_ne_nil
  | cons c cs =>
    rw [hcons] at hdigits hnumber
    obtain ⟨hc, hcs⟩ := List.forall_mem_cons.mp hdigits
    obtain ⟨htake, hdrop⟩ := hrest.span fun c hc => isNumberChar_of_isDigit (hcs c hc)
    rw [List.cons_append, list?]
    case cons =>
      simp only [isBlank_of_isDigit hc, htake, hdrop, hnumber, hc]
      simp
    -- No other token begins with a digit.
    all_goals first
      | exact ne_of_isDigit hc rfl
      | exact fun _ hc' => absurd hc' (ne_of_isDigit hc rfl)

/-! Lists. -/

/-- Things that are written with commas between them. -/
theorem Lexes.intercalate {α : Type} {text : α → String} {ts : α → List Token} (a : α)
    (rest : List α) (h : ∀ b ∈ a :: rest, Lexes (text b).toList (ts b)) :
    Lexes (",".intercalate ((a :: rest).map text)).toList
      (ts a ++ rest.flatMap fun b => .comma :: ts b) := by
  induction rest generalizing a with
  | nil => simpa using h
  | cons b rest ih =>
    obtain ⟨ha, hrest⟩ := List.forall_mem_cons.mp h
    have hcomma : Lexes (',' :: (",".intercalate ((b :: rest).map text)).toList)
        (.comma :: (ts b ++ rest.flatMap fun b => .comma :: ts b)) :=
      .cons (fun rest => by rw [list?]) (ih b hrest)
    have hchars : (",".intercalate ((a :: b :: rest).map text)).toList
        = (text a).toList ++ ',' :: (",".intercalate ((b :: rest).map text)).toList := by
      rw [List.map_cons, List.map_cons, String.intercalate_cons_cons]
      simp
    rw [hchars]
    exact ha.append hcomma (by rintro _ ⟨⟩; rfl)

end Token

theorem renderItems_eq_map (items : List Json) : renderItems items = items.map render := by
  induction items with
  | nil => rfl
  | cons j rest ih => rw [renderItems, ih, List.map_cons]

theorem renderMembers_eq_map (members : List (String × Json)) :
    renderMembers members = members.map fun m => quote m.1 ++ ":" ++ m.2.render := by
  induction members with
  | nil => rfl
  | cons m rest ih => rw [renderMembers, ih, List.map_cons]

theorem moreItems_eq_flatMap (items : List Json) :
    moreItems items = items.flatMap fun j => .comma :: j.tokens := by
  induction items with
  | nil => rfl
  | cons j rest ih => rw [moreItems, ih, List.flatMap_cons, List.cons_append]

theorem moreMembers_eq_flatMap (members : List (String × Json)) :
    moreMembers members
      = members.flatMap fun m => .comma :: .text m.1 :: .colon :: m.2.tokens := by
  induction members with
  | nil => rfl
  | cons m rest ih => rw [moreMembers, ih, List.flatMap_cons]; rfl

/-! Values. -/

open Token (Lexes)

/-- Brackets around something that is read to its end. -/
theorem Token.Lexes.bracket {opening closing : Char} {t t' : Token} {cs : List Char}
    {ts : List Token} (hopening : ∀ rest, list? (opening :: rest) = (list? rest).map (t :: ·))
    (hclosing : ∀ rest, list? (closing :: rest) = (list? rest).map (t' :: ·))
    (hends : isNumberChar closing = false) (h : Lexes cs ts) :
    Lexes (opening :: (cs ++ [closing])) (t :: (ts ++ [t'])) :=
  .cons hopening (h.append (.cons hclosing .nil) (by rintro _ ⟨⟩; exact hends))

/-- What a value was written as is read as its tokens. -/
theorem Plain.lexes {j : Json} (h : j.Plain) : Lexes j.render.toList j.tokens := by
  induction h with
  | null => exact fun rest _ => by rw [tokens]; simp [render, Token.list?]
  | bool b => exact fun rest _ => by cases b <;> simp [render, tokens, Token.list?]
  | int h => exact .int h
  | str s => exact .quote s
  | @arr items _ ih =>
    have hbracket {cs : List Char} {ts : List Token} (h : Lexes cs ts) :
        Lexes ('[' :: (cs ++ [']'])) (.openItems :: (ts ++ [.closeItems])) :=
      .bracket (fun rest => by rw [Token.list?]) (fun rest => by rw [Token.list?]) rfl h
    have hchars : (Json.arr items).render.toList
        = '[' :: ((",".intercalate (items.map render)).toList ++ [']']) := by
      simp [render, renderItems_eq_map]
    rw [hchars]
    cases items with
    | nil => exact hbracket .nil
    | cons j rest =>
      rw [tokens, moreItems_eq_flatMap]
      exact hbracket (.intercalate j rest ih)
  | @obj members _ ih =>
    have hbracket {cs : List Char} {ts : List Token} (h : Lexes cs ts) :
        Lexes ('\x7b' :: (cs ++ ['\x7d'])) (.openMembers :: (ts ++ [.closeMembers])) :=
      .bracket (fun rest => by rw [Token.list?]) (fun rest => by rw [Token.list?]) rfl h
    have hchars : (Json.obj members).render.toList = '\x7b' ::
        ((",".intercalate (members.map fun m => quote m.1 ++ ":" ++ m.2.render)).toList
          ++ ['\x7d']) := by
      simp [render, renderMembers_eq_map]
    have hmember (m : String × Json) (hm : m ∈ members) :
        Lexes (quote m.1 ++ ":" ++ m.2.render).toList (.text m.1 :: .colon :: m.2.tokens) := by
      have hcolon : Lexes (':' :: m.2.render.toList) (.colon :: m.2.tokens) :=
        .cons (fun rest => by rw [Token.list?]) (ih m hm)
      have hkey := (Lexes.quote m.1).append hcolon (by rintro _ ⟨⟩; rfl)
      simpa using hkey
    rw [hchars]
    cases members with
    | nil => exact hbracket .nil
    | cons m rest =>
      rw [tokens, moreMembers_eq_flatMap]
      exact hbracket (.intercalate m rest hmember)

/-- A value that was written is cut into its tokens. -/
theorem Plain.list?_render {j : Json} (h : j.Plain) :
    Token.list? j.render.toList = some j.tokens := by
  have hlexes := h.lexes [] nofun
  rw [List.append_nil, Token.list?] at hlexes
  rw [hlexes, Option.map_some, List.append_nil]

end LuaTypes.Json
