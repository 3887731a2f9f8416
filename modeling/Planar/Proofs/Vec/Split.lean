/-
Cutting at commas does not show.

A vector is read from the parts of a text between commas, each of them leniently.  But
a comma is in no numeral and is no white space, so a lenient reader stops in front of it
anyway (`value_readNumber_append`): read from the whole text, the first number is the
same as read from the first part, and likewise behind the first comma
(`value_readNumber_firstPart`).  Where the cuts are made shows in the notes only, which
quote the part that was read.
-/
import Planar.Proofs.Reading.Longest
import Planar.Proofs.Vec.Trace

namespace Planar.Vec

/-! ### Parts of texts -/

theorem toList_comma_append (a b : String) :
    (a ++ "," ++ b).toList = a.toList ++ ',' :: b.toList := by
  simp

/-- A text with a comma in it is cut at the first. -/
theorem exists_append_of_comma_mem {s : String} (h : ',' ∈ s.toList) :
    ∃ a b : String, ',' ∉ a.toList ∧ s = a ++ "," ++ b := by
  obtain ⟨before, rest, hs, hbefore⟩ := List.eq_append_cons_of_mem h
  refine ⟨String.ofList before, String.ofList rest, by simpa using hbefore, ?_⟩
  rw [← String.toList_inj, toList_comma_append, String.toList_ofList, String.toList_ofList, hs]

theorem firstPart_append {a : String} (h : ',' ∉ a.toList) (b : String) :
    firstPart (a ++ "," ++ b) = a := by
  unfold firstPart
  rw [toList_comma_append, cutAtComma_append h, String.ofList_toList]

theorem firstPart_of_notMem {s : String} (h : ',' ∉ s.toList) : firstPart s = s := by
  unfold firstPart
  rw [cutAtComma_of_notMem h, String.ofList_toList]

theorem readSecond_append {a : String} (h : ',' ∉ a.toList) (b : String) :
    readSecond (a ++ "," ++ b) = readNumber (firstPart b) := by
  unfold readSecond
  rw [toList_comma_append, cutAtComma_append h]
  rfl

/-! ### The components -/

/-- Cutting a text at its first comma does not change the number at its start. -/
theorem value_readNumber_firstPart (s : String) :
    (readNumber (firstPart s)).value = (readNumber s).value := by
  by_cases h : ',' ∈ s.toList
  · obtain ⟨a, b, ha, rfl⟩ := exists_append_of_comma_mem h
    rw [firstPart_append ha]
    have hstop := value_readNumber_append (w := "") (c := ',') (by simp) (by decide)
      (by simp [NumeralChar, numeralMarks]) a b
    rw [← hstop]
    simp
  · rw [firstPart_of_notMem h]

theorem x_ofText (s : String) : (ofText s).value.x = (readNumber s).value := by
  rw [ofText_eq]
  simp only [Traced.value_bind, Traced.value_pure, value_readNumber_firstPart]

theorem y_ofText_append {a : String} (h : ',' ∉ a.toList) (b : String) :
    (ofText (a ++ "," ++ b)).value.y = (readNumber b).value := by
  rw [ofText_eq]
  simp only [Traced.value_bind, Traced.value_pure, readSecond_append h, value_readNumber_firstPart]

/-- Nothing behind the second comma is looked at, not even for the notes. -/
theorem ofText_append {a b : String} (ha : ',' ∉ a.toList) (hb : ',' ∉ b.toList) (r : String) :
    ofText (a ++ "," ++ (b ++ "," ++ r)) = ofText (a ++ "," ++ b) := by
  rw [ofText_eq, ofText_eq, firstPart_append ha, firstPart_append ha, readSecond_append ha,
    readSecond_append ha, firstPart_append hb, firstPart_of_notMem hb]

/-- **Each component is the number that the lenient reader finds in the whole of what is
left, commas and all.**  What is behind the second comma never matters.  In general no
reading goes past a character that is neither white space nor in any numeral. -/
theorem ofText_uncut :
    (∀ s : String, (ofText s).value.x = (readNumber s).value) ∧
    (∀ a b : String, ',' ∉ a.toList →
      (ofText (a ++ "," ++ b)).value.y = (readNumber b).value) ∧
    (∀ a b r : String, ',' ∉ a.toList → ',' ∉ b.toList →
      ofText (a ++ "," ++ (b ++ "," ++ r)) = ofText (a ++ "," ++ b)) ∧
    ∀ (w s r : String) (c : Char), (∀ b ∈ w.toList, Text.isBlank b = true) →
      Text.isBlank c = false → ¬ NumeralChar c →
      (readNumber (w ++ s ++ String.singleton c ++ r)).value = (readNumber s).value := by
  refine ⟨x_ofText, fun a b h => y_ofText_append h b, fun a b r ha hb => ofText_append ha hb r, ?_⟩
  intro w s r c hw hblank hc
  exact value_readNumber_append hw hblank hc s r

/-- An exponent without digits before the comma, and a word that is cut off by the next. -/
theorem ofText_uncut_dangling :
    (ofText ("1e+" ++ "," ++ "Infinit,y")).value.y = (readNumber "Infinit,y").value ∧
      ofText ("1e+" ++ "," ++ ("2" ++ "," ++ "3")) = ofText ("1e+" ++ "," ++ "2") ∧
      (readNumber ("\u2003" ++ "1e+" ++ String.singleton ';' ++ "5")).value
        = (readNumber "1e+").value :=
  ⟨ofText_uncut.2.1 _ _ (by decide), ofText_uncut.2.2.1 _ _ _ (by decide) (by decide),
    ofText_uncut.2.2.2 _ _ _ ';' (List.all_eq_true.mp (by decide)) (by decide)
      (by simp [NumeralChar, numeralMarks])⟩

end Planar.Vec
