/-
Vectors read back from their texts.

The plain text of a vector has one comma in it, because no text of a number has
any.  So it is cut into the two texts that it was put together from, and each is
read on its own (`ofText_join`): nothing that is written for one component can
change how the other is read.
-/
import Mathlib.Data.List.TakeWhile
import Planar.Proofs.Reading
import Planar.Vec.Text

namespace Planar.Vec

/-! ### Cutting -/

theorem ne_comma_of_notMem {cs : List Char} (h : ',' ∉ cs) : ∀ c ∈ cs, (c != ',') = true := by
  intro c hc
  rw [bne_iff_ne]
  rintro rfl
  exact h hc

theorem cutAtComma_append {cs : List Char} (h : ',' ∉ cs) (rest : List Char) :
    cutAtComma (cs ++ ',' :: rest) = (cs, some rest) := by
  have hall := ne_comma_of_notMem h
  unfold cutAtComma
  rw [List.takeWhile_append_of_pos hall, List.dropWhile_append_of_pos hall]
  simp

theorem cutAtComma_of_notMem {cs : List Char} (h : ',' ∉ cs) : cutAtComma cs = (cs, none) := by
  have hall := ne_comma_of_notMem h
  unfold cutAtComma
  rw [List.takeWhile_eq_self_iff.mpr hall, List.dropWhile_eq_nil_iff.mpr hall]

/-- Two texts without commas, put together with one, are read one by one, with the notes
on both. -/
theorem ofText_comma {a b : List Char} (ha : ',' ∉ a) (hb : ',' ∉ b) :
    ofText (String.ofList (a ++ ',' :: b)) = do
      let x ← readNumber (String.ofList a)
      let y ← readNumber (String.ofList b)
      return ⟨x, y⟩ := by
  unfold ofText
  rw [String.toList_ofList, cutAtComma_append ha b]
  simp only [cutAtComma_of_notMem hb]

theorem ofText_join {a b : List Char} (ha : ',' ∉ a) (hb : ',' ∉ b) :
    (ofText (String.ofList (a ++ ',' :: b))).value
      = ⟨(readNumber (String.ofList a)).value, (readNumber (String.ofList b)).value⟩ := by
  rw [ofText_comma ha hb]
  rfl

/-! ### The round trip -/

/-- **The plain text of a vector gives back each finite component as it was, and NaN
for each that is not finite, whatever the other component is.** -/
theorem ofText_text (v : Vec) : (ofText v.text).value = ⟨v.x.orNaN, v.y.orNaN⟩ := by
  unfold text componentText
  rw [ofText_join (comma_not_mem_write _ v.x) (comma_not_mem_write _ v.y), readNumber_write,
    readNumber_write]

end Planar.Vec
