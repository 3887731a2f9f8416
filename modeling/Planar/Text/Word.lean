/-
Fixed words at the start of a text.
-/

namespace Planar.Text

/-- What follows a word at the start of a text; nothing if the text does not
start with it. -/
def afterWord? : List Char → List Char → Option (List Char)
  | [], cs => some cs
  | _ :: _, [] => none
  | w :: ws, c :: cs => if w = c then afterWord? ws cs else none

/-- A text starts with a word exactly when it is the word followed by the rest. -/
theorem afterWord?_eq_some_iff {word cs rest : List Char} :
    afterWord? word cs = some rest ↔ cs = word ++ rest := by
  induction word generalizing cs with
  | nil => simp [afterWord?]
  | cons w ws ih =>
    cases cs with
    | nil => simp [afterWord?]
    | cons c cs =>
      by_cases h : w = c
      · simp [afterWord?, h, ih]
      · simp [afterWord?, h, Ne.symm h]

end Planar.Text
