/-
Cutting a JSON text into its tokens.

The reader of tokens looks at one character and then at as much of the text as the
token takes.  Brackets, commas and colons take nothing more, so a text that is
built from the texts of values with such characters between them is cut where it
was put together.  What a value's text has to do for that is one condition
(`TokenText`): in front of anything that does not prolong a number it is one token.

The two texts of a pair of components, the array and the object, are given here
with their tokens (`tokens_pairText`, `tokens_recordText`).
-/
import Planar.Json.Token
import Planar.Proofs.Numeral.Scan

namespace Planar.Json

/-! ### One token -/

theorem tokens_nil : tokens [] = [] := by
  rw [tokens]

theorem tokens_cons {c : Char} {cs rest : List Char} {t : Token} (hc : isBlank c = false)
    (h : Token.read c cs = (t, rest)) : tokens (c :: cs) = t :: tokens rest := by
  rw [tokens, hc, h]
  rfl

/-- A minus sign or a digit starts a number and nothing else. -/
theorem read_number {c : Char} (hc : c = '-' ∨ c.isDigit = true) (cs : List Char) :
    Token.read c cs = match Numeral.scan? (c :: cs) with
      | some (n, rest) => if isJsonNumeral rest n then (Token.ofNumeral n, rest) else (.invalid, [])
      | none => (.invalid, []) := by
  have hne (d : Char) (hd : d.isDigit = false) (hminus : d ≠ '-') : c ≠ d := by
    rintro rfl
    rcases hc with h | h
    · exact hminus h
    · exact absurd h (by simp [hd])
  unfold Token.read
  split
  case h_11 =>
    refine (if_pos hc).trans ?_
    cases Numeral.scan? (c :: cs) <;> rfl
  all_goals exact absurd rfl (hne _ (by decide) (by decide))

/-- A text that is one token, whatever comes after it, unless it prolongs a number. -/
def TokenText (cs : List Char) (t : Token) : Prop :=
  ∀ rest, Stops rest → tokens (cs ++ rest) = t :: tokens rest

theorem tokenText_null : TokenText ['n', 'u', 'l', 'l'] (.scalar .null) := by
  intro rest _
  exact tokens_cons rfl rfl

/-! ### Two components -/

/-- The text of an array of two items. -/
def pairText (a b : List Char) : List Char := '[' :: (a ++ ',' :: (b ++ [']']))

/-- The text of an object with the members `x` and `y`. -/
def recordText (a b : List Char) : List Char :=
  ['\x7b', '"', 'x', '"', ':'] ++ a ++ [',', '"', 'y', '"', ':'] ++ b ++ ['\x7d']

variable {a b : List Char} {s t : Token}

theorem tokens_comma (cs : List Char) : tokens (',' :: cs) = .comma :: tokens cs :=
  tokens_cons rfl rfl

/-- The name of a member, with its colon. -/
theorem tokens_key (axis : Char) (haxis : axis = 'x' ∨ axis = 'y') (cs : List Char) :
    tokens ('"' :: axis :: '"' :: ':' :: cs)
      = .scalar (.string (String.singleton axis)) :: .colon :: tokens cs := by
  have hcolon : tokens (':' :: cs) = .colon :: tokens cs := tokens_cons rfl rfl
  rcases haxis with rfl | rfl <;>
  · rw [← hcolon]
    exact tokens_cons rfl rfl

theorem tokens_pairText (ha : TokenText a s) (hb : TokenText b t) :
    tokens (pairText a b) = [.openArray, s, .comma, t, .closeArray] := by
  have hopen (cs : List Char) : tokens ('[' :: cs) = .openArray :: tokens cs := tokens_cons rfl rfl
  have hclose (cs : List Char) : tokens (']' :: cs) = .closeArray :: tokens cs :=
    tokens_cons rfl rfl
  unfold pairText
  rw [hopen, ha _ (stops_cons _ (by decide)), tokens_comma, hb _ (stops_cons _ (by decide)), hclose,
    tokens_nil]

theorem tokens_recordText (ha : TokenText a s) (hb : TokenText b t) :
    tokens (recordText a b) = [.openObject, .scalar (.string "x"), .colon, s, .comma,
      .scalar (.string "y"), .colon, t, .closeObject] := by
  have hopen (cs : List Char) : tokens ('\x7b' :: cs) = .openObject :: tokens cs :=
    tokens_cons rfl rfl
  have hclose (cs : List Char) : tokens ('\x7d' :: cs) = .closeObject :: tokens cs :=
    tokens_cons rfl rfl
  unfold recordText
  simp only [List.cons_append, List.nil_append, List.append_assoc]
  rw [hopen, tokens_key 'x' (Or.inl rfl), ha _ (stops_cons _ (by decide)), tokens_comma,
    tokens_key 'y' (Or.inr rfl), hb _ (stops_cons _ (by decide)), hclose, tokens_nil]
  rfl

end Planar.Json
