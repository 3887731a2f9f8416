/-
Reading what was written.

The lenient reader of numbers skips blanks, takes the longest numeral and forgets
the rest.  On a text that is a numeral it therefore gives that numeral's value
(`readNumber_text`), and on what a layout wrote it gives the number back
(`readNumber_write`).  The words for infinities and NaN are no numerals, so those
three numbers come back as NaN: reading keeps a number if it is finite
(`Binary64.orNaN`).
-/
import Planar.Proofs.Decimal.Layout
import Planar.Reading

namespace Planar

/-- What a text keeps of a number: the number if it is finite, and NaN if not. -/
def Binary64.orNaN (c : Binary64) : Binary64 := if c.isFinite then c else nan

/-! ### Characters of numerals -/

/-- The characters of numerals that are not digits. -/
def numeralMarks : List Char := ['+', '-', '.', 'e', 'E', 'I', 'n', 'f', 'i', 't', 'y']

/-- A character that can stand in a numeral. -/
def NumeralChar (c : Char) : Prop := c.isDigit = true ∨ c ∈ numeralMarks

/-- Those of them that stand in numerals with digits. -/
def decimalMarks : List Char := ['+', '-', '.', 'e', 'E']

theorem mem_decimalMarks_of_mem_sign {s : Sign} {c : Char} (hc : c ∈ s.text) :
    c ∈ decimalMarks := by
  cases s <;> simp only [Sign.text, List.mem_singleton, List.not_mem_nil] at hc <;> subst hc <;>
    decide

theorem mem_decimalMarks_of_mem_text {sign : Sign} {whole : List Char}
    {fraction : Option (List Char)} {power : Option Power}
    (hn : (Numeral.decimal sign whole fraction power).WellFormed) {c : Char}
    (hc : c ∈ (Numeral.decimal sign whole fraction power).text) :
    c.isDigit = true ∨ c ∈ decimalMarks := by
  cases hn with
  | decimal hwhole hfraction hsome hpower =>
      simp only [Numeral.text, List.mem_append] at hc
      rcases hc with ((h | h) | h) | h
      · exact Or.inr (mem_decimalMarks_of_mem_sign h)
      · exact Or.inl (hwhole c h)
      · cases fraction with
        | none => simp [Numeral.fractionText] at h
        | some places =>
            rcases List.mem_cons.mp h with rfl | h
            · exact Or.inr (by decide)
            · exact Or.inl (hfraction places rfl c h)
      · cases power with
        | none => simp [Numeral.powerText] at h
        | some p =>
            have hp := hpower p rfl
            simp only [Numeral.powerText, Power.text, List.mem_cons, List.mem_append] at h
            rcases h with rfl | h | h
            · rcases hp.letter with hl | hl <;> rw [hl] <;> exact Or.inr (by decide)
            · exact Or.inr (mem_decimalMarks_of_mem_sign h)
            · exact Or.inl (hp.digits c h)

theorem numeralChar_of_mem_text {n : Numeral} (hn : n.WellFormed) {c : Char} (hc : c ∈ n.text) :
    NumeralChar c := by
  have hmarks : ∀ d ∈ decimalMarks, d ∈ numeralMarks := by simp [decimalMarks, numeralMarks]
  cases n with
  | infinity sign =>
      rcases List.mem_append.mp hc with h | h
      · exact Or.inr (hmarks c (mem_decimalMarks_of_mem_sign h))
      · have hword : Numeral.infinityWord.all (fun c => decide (c ∈ numeralMarks)) = true := by
          decide
        exact Or.inr (of_decide_eq_true (List.all_eq_true.mp hword c h))
  | decimal sign whole fraction power =>
      exact (mem_decimalMarks_of_mem_text hn hc).imp_right (hmarks c)

/-- They are ASCII characters, from the plus sign on. -/
theorem toNat_of_numeralChar {c : Char} (h : NumeralChar c) : 0x2b ≤ c.toNat ∧ c.toNat < 0x80 := by
  rcases h with hd | hm
  · simp only [Char.isDigit, Bool.and_eq_true, decide_eq_true_eq] at hd
    obtain ⟨hlow, hhigh⟩ := hd
    have h1 : ('0' : Char).val.toNat ≤ c.val.toNat := hlow
    have h2 : c.val.toNat ≤ ('9' : Char).val.toNat := hhigh
    simp only [Char.toNat] at *
    exact ⟨le_trans (by decide) h1, lt_of_le_of_lt h2 (by decide)⟩
  · have hmarks : numeralMarks.all (fun c => decide (0x2b ≤ c.toNat ∧ c.toNat < 0x80)) = true := by
      decide
    exact of_decide_eq_true (List.all_eq_true.mp hmarks c hm)

theorem comma_not_mem_text {n : Numeral} (hn : n.WellFormed) : ',' ∉ n.text := by
  intro hc
  rcases numeralChar_of_mem_text hn hc with h | h <;> exact absurd h (by decide)

theorem isBlank_of_numeralChar {c : Char} (h : NumeralChar c) : Text.isBlank c = false := by
  obtain ⟨hlow, hhigh⟩ := toNat_of_numeralChar h
  simp [Text.isBlank, Text.inRanges, Text.blankRanges]
  omega

/-- A numeral has no blanks to skip. -/
theorem trimStart_text {n : Numeral} (hn : n.WellFormed) :
    Text.trimStart n.text = n.text := by
  cases htext : n.text with
  | nil => rfl
  | cons c cs =>
      have hc := numeralChar_of_mem_text hn (c := c) (by simp [htext])
      simp [Text.trimStart, isBlank_of_numeralChar hc]

/-! ### Numbers -/

theorem readNumber_of_scan? {s : String} {n : Numeral} {rest : List Char}
    (h : Numeral.scan? (Text.trimStart s.toList) = some (n, rest)) :
    readNumber s = pure n.value := by
  unfold readNumber
  rw [h]

theorem readNumber_of_scan?_eq_none {s : String}
    (h : Numeral.scan? (Text.trimStart s.toList) = none) :
    readNumber s = .noting (.noNumber s) .nan := by
  unfold readNumber
  rw [h]

/-- A text that is a numeral is read as the numeral's value. -/
theorem readNumber_text {n : Numeral} (hn : n.WellFormed) :
    readNumber (String.ofList n.text) = pure n.value := by
  have hscan := Numeral.scan?_text_append hn stops_nil
  rw [List.append_nil] at hscan
  rw [← trimStart_text hn, ← String.toList_ofList (l := n.text)] at hscan
  exact readNumber_of_scan? hscan

/-- The words for what is not finite start no numeral. -/
theorem value_readNumber_of_not_isFinite (l : Layout) {c : Binary64} (h : c.isFinite = false) :
    (readNumber (String.ofList (l.write c))).value = .nan := by
  have hscan : Numeral.scan? (Text.trimStart (String.ofList (l.write c)).toList) = none := by
    rw [String.toList_ofList]
    cases c with
    | nan => rfl
    | infinite s => cases s <;> rfl
    | finite s r => cases h
  rw [readNumber_of_scan?_eq_none hscan, Traced.value_noting]

/-- The sign as a layout writes it. -/
def Sign.ofBool (negative : Bool) : Sign := if negative then minus else bare

theorem Sign.isMinus_ofBool (negative : Bool) : (Sign.ofBool negative).isMinus = negative := by
  cases negative <;> rfl

theorem Layout.write_finite (l : Layout) (s : Bool) (r : Rank) : l.write (.finite s r)
    = (l.numeral (Sign.ofBool s) (Decimal.shortest l.tie r)).text := by
  rw [l.text_numeral]
  cases s <;> rfl

/-- What a layout writes for a finite number is a numeral with that value. -/
theorem exists_numeral_write (l : Layout) (s : Bool) (r : Rank) :
    ∃ n : Numeral, n.WellFormed ∧ l.write (.finite s r) = n.text ∧ n.value = .finite s r := by
  refine ⟨l.numeral (Sign.ofBool s) (Decimal.shortest l.tie r), l.wellFormed_numeral _ _,
    l.write_finite s r, ?_⟩
  rw [l.value_numeral_shortest, Sign.isMinus_ofBool]

/-- **What a layout wrote is read back, and what is not finite is read as NaN.** -/
theorem readNumber_write (l : Layout) (c : Binary64) :
    (readNumber (String.ofList (l.write c))).value = c.orNaN := by
  cases c with
  | nan => exact value_readNumber_of_not_isFinite l rfl
  | infinite s => exact value_readNumber_of_not_isFinite l rfl
  | finite s r =>
      obtain ⟨n, hn, htext, hvalue⟩ := exists_numeral_write l s r
      rw [htext, readNumber_text hn, Traced.value_pure, hvalue]
      rfl

/-- No text of a number has a comma in it. -/
theorem comma_not_mem_write (l : Layout) (c : Binary64) : ',' ∉ l.write c := by
  cases c with
  | nan => simp [Layout.write]
  | infinite s => cases s <;> simp [Layout.write]
  | finite s r =>
      obtain ⟨n, hn, htext, -⟩ := exists_numeral_write l s r
      rw [htext]
      exact comma_not_mem_text hn

end Planar
