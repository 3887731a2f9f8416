/-
What is read is the value of the longest numeral.

A number is read by cutting the longest numeral off the text behind its white space.
What the cut finds is settled already: a numeral stands there or none does
(`Numeral.scan?_eq_none_iff`), and the one found is the longest
(`Numeral.isLongest_of_scan?`).  Its value is what its text stands for
(`Numeral.isValue_value`): the text tells an infinity by the word at its end and a
minus by its first character, and otherwise it denotes a rational number, of which the
value is the rounding.

A reader may also cut first and then hand the text that was cut to a general reader of
whole texts, which could refuse it.  It never does (`readCut?_eq`), although the two
know different words: the cut knows only `Infinity`, and a text that ends in it is
never handed on.

Because only the longest numeral counts, a character that is in no numeral ends what is
read: no numeral goes on across it, so the numerals at the start of the text are those
in front of it (`value_readNumber_append`).
-/
import Planar.Proofs.Numeral.Language
import Planar.Proofs.Numeral.Rounding
import Planar.Proofs.Reading

namespace Planar

namespace Numeral

/-! ### What a text of the language stands for -/

/-- `x` is the number that the text `p` stands for: an infinity if `p` ends in the word
for it, and otherwise the rational number that `p` denotes, rounded once.  The sign is
that of `p`. -/
structure IsValue (p : List Char) (x : Binary64) : Prop where
  infinite : infinityWord <:+ p → x = .infinite (p.head? == some '-')
  rounded : ¬ infinityWord <:+ p → ∃ sign whole fraction power,
    (decimal sign whole fraction power).WellFormed ∧
      (decimal sign whole fraction power).text = p ∧
      Binary64.IsSignedRounding (p.head? == some '-') (denoted whole fraction power) x

section

variable {sign : Sign} {whole : List Char} {fraction : Option (List Char)} {power : Option Power}

theorem head?_sign_append (sign : Sign) {c : Char} (cs : List Char) (h : c ≠ '-') :
    ((sign.text ++ c :: cs).head? == some '-') = sign.isMinus := by
  cases sign with
  | bare => simpa [Sign.text, Sign.isMinus] using h
  | plus => rfl
  | minus => rfl

/-- The sign of a numeral with digits is seen at the start of its text. -/
theorem head?_text_decimal (hn : (decimal sign whole fraction power).WellFormed) :
    ((decimal sign whole fraction power).text.head? == some '-') = sign.isMinus := by
  cases hn with
  | decimal hwhole hfraction hsome hpower =>
      obtain ⟨c, cs, hcs, hc⟩ := exists_head hwhole hsome (powerText power)
      have hne : c ≠ '-' := by
        rintro rfl
        exact absurd hc (by decide)
      simp only [text, List.append_assoc]
      rw [hcs]
      exact head?_sign_append sign cs hne

/-- No letter of the word for infinity is in a numeral with digits. -/
theorem not_infinityWord_suffix (hn : (decimal sign whole fraction power).WellFormed) :
    ¬ infinityWord <:+ (decimal sign whole fraction power).text := by
  intro h
  have hmem : 'y' ∈ (decimal sign whole fraction power).text := h.subset (by decide)
  exact absurd (mem_decimalMarks_of_mem_text hn hmem) (by decide)

end

/-- **The value of a numeral is what its text stands for.** -/
theorem isValue_value {n : Numeral} (hn : n.WellFormed) : IsValue n.text n.value := by
  cases n with
  | infinity sign =>
      have hsuffix : infinityWord <:+ (infinity sign).text := List.suffix_append _ _
      refine ⟨fun _ => ?_, fun h => absurd hsuffix h⟩
      exact congrArg Binary64.infinite (head?_sign_append sign _ (by decide)).symm
  | decimal sign whole fraction power =>
      refine ⟨fun h => absurd h (not_infinityWord_suffix hn), fun _ => ?_⟩
      refine ⟨sign, whole, fraction, power, hn, rfl, ?_⟩
      rw [head?_text_decimal hn]
      exact isSignedRounding_value sign

/-! ### The general reader of whole texts -/

/-- A word for an infinity or for NaN, in letters of either case. -/
def wordValue? (negative : Bool) (word : List Char) : Option Binary64 :=
  let lower := word.map Char.toLower
  if lower = "inf".toList ∨ lower = "infinity".toList then some (.infinite negative)
  else if lower = "nan".toList then some .nan
  else none

/-- The number that a whole text stands for: a numeral with digits, or behind a sign
one of the words.  Any other text is refused. -/
def parse? (cs : List Char) : Option Binary64 :=
  match scan? cs with
  | some (decimal sign whole fraction power, []) => some (decimal sign whole fraction power).value
  | _ =>
    let (sign, word) := Sign.scan cs
    wordValue? sign.isMinus word

theorem parse?_decimal {sign : Sign} {whole : List Char} {fraction : Option (List Char)}
    {power : Option Power} (hn : (decimal sign whole fraction power).WellFormed) :
    parse? (decimal sign whole fraction power).text
      = some (decimal sign whole fraction power).value := by
  have hscan := scan?_text_append hn stops_nil
  rw [List.append_nil] at hscan
  unfold parse?
  rw [hscan]

end Numeral

/-! ### Cutting first -/

open Numeral

/-- The number at the start of a text, read in two passes: the numeral is cut off as a
text, and that text is read as a whole unless it ends in the word for infinity.  There
is no result if the second pass refuses what the first one cut. -/
def readCut? (text : String) : Option (Traced Binary64) :=
  match scan? (Text.trimStart text.toList) with
  | none => some (.noting (.noNumber text) .nan)
  | some (n, _) =>
    if infinityWord <:+ n.text then some (pure (.infinite (n.text.head? == some '-')))
    else (parse? n.text).map pure

/-- **The second pass refuses nothing that the first one cut, and the two passes read
what one does.** -/
theorem readCut?_eq (text : String) : readCut? text = some (readNumber text) := by
  unfold readCut? readNumber
  cases hscan : scan? (Text.trimStart text.toList) with
  | none => rfl
  | some found =>
      obtain ⟨n, rest⟩ := found
      have hn := wellFormed_of_scan? hscan
      dsimp only
      split
      · next hword => rw [(isValue_value hn).infinite hword]
      · next hword =>
        cases n with
        | infinity sign => exact absurd (List.suffix_append _ _) hword
        | decimal sign whole fraction power =>
            rw [parse?_decimal hn]
            rfl

/-! ### The longest numeral -/

theorem value_readNumber_eq_nan_iff {s : String} :
    (readNumber s).value = .nan ↔ ¬∃ p, IsLongest (Text.trimStart s.toList) p := by
  rw [← scan?_eq_none_iff]
  cases hscan : scan? (Text.trimStart s.toList) with
  | none => simp [readNumber_of_scan?_eq_none hscan]
  | some found =>
      obtain ⟨n, rest⟩ := found
      simp [readNumber_of_scan? hscan, n.value_ne_nan]

theorem Numeral.IsLongest.exists_readNumber {s : String} {p : List Char}
    (h : IsLongest (Text.trimStart s.toList) p) :
    ∃ n : Numeral, n.WellFormed ∧ n.text = p ∧ readNumber s = pure n.value := by
  obtain ⟨n, rest, hscan, hn, htext⟩ := h.exists_scan?
  exact ⟨n, hn, htext, readNumber_of_scan? hscan⟩

/-- **What is read is the number that the longest numeral behind the white space stands
for, and NaN exactly if there is none.**  Reading in two passes gives the same, and
there is always a result. -/
theorem readNumber_longest (s : String) :
    ((readNumber s).value = .nan ↔ ¬∃ p, IsLongest (Text.trimStart s.toList) p) ∧
    ((∃ p, IsLongest (Text.trimStart s.toList) p) ↔
      ∃ p, p <+: Text.trimStart s.toList ∧ p ∈ numerals) ∧
    (∀ p, IsLongest (Text.trimStart s.toList) p →
      ∃ x, readNumber s = pure x ∧ IsValue p x) ∧
    readCut? s = some (readNumber s) := by
  refine ⟨value_readNumber_eq_nan_iff, exists_isLongest_iff, ?_, readCut?_eq s⟩
  intro p hp
  obtain ⟨n, hn, rfl, hread⟩ := hp.exists_readNumber
  exact ⟨n.value, hread, isValue_value hn⟩

/-- Behind a space that is no ASCII character, an exponent without digits is left. -/
theorem readNumber_longest_dangling :
    IsLongest (Text.trimStart "\u00a0-12.5e+x".toList) "-12.5".toList ∧
      ∃ x, readNumber "\u00a0-12.5e+x" = pure x ∧ IsValue "-12.5".toList x := by
  have hscan : scan? (Text.trimStart "\u00a0-12.5e+x".toList)
      = some (.decimal .minus ['1', '2'] (some ['5']) none, ['e', '+', 'x']) := by decide +kernel
  have hlongest : IsLongest (Text.trimStart "\u00a0-12.5e+x".toList) "-12.5".toList :=
    isLongest_of_scan? hscan
  exact ⟨hlongest, (readNumber_longest _).2.2.1 _ hlongest⟩

/-! ### A character that is in no numeral -/

section

variable {p t w r : List Char} {c : Char}

/-- What stands at the start and does not have the character stands in front of it. -/
theorem prefix_of_notMem (h : p <+: t ++ c :: r) (hc : c ∉ p) : p <+: t := by
  rcases List.prefix_or_prefix_of_prefix h (List.prefix_append t (c :: r)) with hp | ht
  · exact hp
  · obtain ⟨q, rfl⟩ := ht
    rw [List.prefix_append_right_inj] at h
    cases q with
    | nil => rw [List.append_nil]
    | cons d q =>
        obtain ⟨rfl, -⟩ := List.cons_prefix_cons.mp h
        exact absurd (by simp) hc

theorem notMem_of_mem_numerals (hp : p ∈ numerals) (hc : ¬ NumeralChar c) : c ∉ p := by
  obtain ⟨n, hn, rfl⟩ := mem_numerals_iff.mp hp
  exact fun hmem => hc (numeralChar_of_mem_text hn hmem)

/-- The longest numeral is the same with and without what follows such a character. -/
theorem isLongest_append_iff (hc : ¬ NumeralChar c) :
    IsLongest (t ++ c :: r) p ↔ IsLongest t p := by
  refine isLongest_congr fun q hq => ?_
  constructor
  · exact fun h => prefix_of_notMem h (notMem_of_mem_numerals hq hc)
  · exact fun h => h.trans (List.prefix_append t (c :: r))

theorem trimStart_append (hw : ∀ b ∈ w, Text.isBlank b = true) (hc : Text.isBlank c = false)
    (s : List Char) :
    Text.trimStart (w ++ s ++ c :: r) = Text.trimStart s ++ c :: r := by
  unfold Text.trimStart
  rw [List.append_assoc, List.dropWhile_append_of_pos hw, List.dropWhile_append]
  split
  · next hnil =>
    rw [List.isEmpty_iff.mp hnil]
    simp [hc]
  · rfl

end

/-- What is read depends on the longest numeral only. -/
theorem value_readNumber_congr {s s' : String}
    (h : ∀ p, IsLongest (Text.trimStart s.toList) p ↔ IsLongest (Text.trimStart s'.toList) p) :
    (readNumber s).value = (readNumber s').value := by
  by_cases hnan : (readNumber s').value = .nan
  · rw [hnan, value_readNumber_eq_nan_iff]
    rw [value_readNumber_eq_nan_iff] at hnan
    rintro ⟨p, hp⟩
    exact hnan ⟨p, (h p).mp hp⟩
  · rw [value_readNumber_eq_nan_iff, not_not] at hnan
    obtain ⟨p, hp⟩ := hnan
    obtain ⟨n, hn, htext, hread⟩ := ((h p).mpr hp).exists_readNumber
    obtain ⟨n', hn', htext', hread'⟩ := hp.exists_readNumber
    rw [hread, hread', eq_of_text_eq hn hn' (htext.trans htext'.symm)]

/-- **White space in front, and anything behind a character that is neither white space
nor in any numeral, do not change the number that is read.** -/
theorem value_readNumber_append {w : String} {c : Char}
    (hw : ∀ b ∈ w.toList, Text.isBlank b = true) (hblank : Text.isBlank c = false)
    (hc : ¬ NumeralChar c) (s r : String) :
    (readNumber (w ++ s ++ String.singleton c ++ r)).value = (readNumber s).value := by
  refine value_readNumber_congr fun p => ?_
  have hlist : (w ++ s ++ String.singleton c ++ r).toList
      = w.toList ++ s.toList ++ c :: r.toList := by simp
  rw [hlist, trimStart_append hw hblank, isLongest_append_iff hc]

end Planar
