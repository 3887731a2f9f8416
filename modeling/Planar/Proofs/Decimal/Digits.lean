/-
The digits that a written number shows.

A text of a number has digits that say nothing about it: zeros before the first other digit,
zeros behind the last one, and those of an exponent.  What is left are its significant
digits.  They can be taken from the text alone (`significantDigits`), without knowing how
it was laid out, and so texts of different layouts can be compared.

A layout puts only such zeros around the digits of the coefficient (`exists_padding`), and
the coefficient of a shortest decimal has none at its own ends.  So the significant digits
of what a layout writes are those of the shortest decimal (`significantDigits_write`), and
no numeral with that value has fewer of them (`length_significantDigits_write_le`).
-/
import Mathlib.Data.List.DropRight
import Planar.Proofs.Decimal.Minimal
import Planar.Proofs.Reading

namespace Planar

/-! ### Zeros at the ends -/

/-- Digits without the zeros at either end. -/
def trimZeros (ds : List Char) : List Char := (ds.dropWhile (· == '0')).rdropWhile (· == '0')

theorem exists_dropWhile_zeros (ds : List Char) :
    ∃ a, ds = List.replicate a '0' ++ ds.dropWhile (· == '0') := by
  induction ds with
  | nil => exact ⟨0, rfl⟩
  | cons c cs ih =>
      by_cases hc : c = '0'
      · obtain ⟨a, ha⟩ := ih
        refine ⟨a + 1, ?_⟩
        rw [hc, List.dropWhile_cons_of_pos (by simp), List.replicate_succ, List.cons_append, ← ha]
      · refine ⟨0, ?_⟩
        rw [List.dropWhile_cons_of_neg (by simp [hc])]
        rfl

theorem exists_rdropWhile_zeros (ds : List Char) :
    ∃ b, ds = ds.rdropWhile (· == '0') ++ List.replicate b '0' := by
  obtain ⟨b, hb⟩ := exists_dropWhile_zeros ds.reverse
  refine ⟨b, List.reverse_injective ?_⟩
  rw [List.reverse_append, List.reverse_replicate, List.rdropWhile, List.reverse_reverse]
  exact hb

/-- Only zeros were taken away. -/
theorem exists_trimZeros (ds : List Char) :
    ∃ a b, ds = List.replicate a '0' ++ (trimZeros ds ++ List.replicate b '0') := by
  obtain ⟨a, ha⟩ := exists_dropWhile_zeros ds
  obtain ⟨b, hb⟩ := exists_rdropWhile_zeros (ds.dropWhile (· == '0'))
  refine ⟨a, b, ?_⟩
  unfold trimZeros
  rw [← hb]
  exact ha

theorem trimZeros_replicate (n : Nat) : trimZeros (List.replicate n '0') = [] := by
  unfold trimZeros
  simp

theorem rdropWhile_append_zeros (ds : List Char) (b : Nat) :
    (ds ++ List.replicate b '0').rdropWhile (· == '0') = ds.rdropWhile (· == '0') := by
  induction b with
  | zero => rw [List.replicate_zero, List.append_nil]
  | succ b ih =>
      rw [List.replicate_succ', ← List.append_assoc, List.rdropWhile_concat_pos _ _ _ (by simp), ih]

/-- Zeros are taken away up to a digit that is not zero. -/
theorem trimZeros_padded {ds : List Char} (hne : ds ≠ []) (hhead : ds.head? ≠ some '0')
    (hlast : ds.getLast hne ≠ '0') (a b : Nat) :
    trimZeros (List.replicate a '0' ++ (ds ++ List.replicate b '0')) = ds := by
  have hfront : (ds ++ List.replicate b '0').dropWhile (· == '0') = ds ++ List.replicate b '0' := by
    cases ds with
    | nil => exact absurd rfl hne
    | cons c cs =>
        have hc : ¬ c = '0' := by simpa using hhead
        simp [hc]
  unfold trimZeros
  rw [List.dropWhile_append_of_pos (by simp), hfront, rdropWhile_append_zeros,
    List.rdropWhile_eq_self_iff]
  intro _
  simpa using hlast

/-- A character that does not open an exponent. -/
def noExponentMark (c : Char) : Bool := c != 'e' && c != 'E'

/-- The significant digits of a written number: those before an exponent, from the first
that is not zero to the last. -/
def significantDigits (t : List Char) : List Char :=
  trimZeros ((t.takeWhile noExponentMark).filter Char.isDigit)

theorem allDigits_significantDigits (t : List Char) : AllDigits (significantDigits t) := by
  intro c hc
  have hmem := (List.dropWhile_suffix _).subset ((List.rdropWhile_prefix _ _).subset hc)
  exact (List.mem_filter.mp hmem).2

/-! ### Digits and coefficients -/

theorem ofDigitChars_lt {ds : List Char} (h : AllDigits ds) (init : Nat) :
    Nat.ofDigitChars 10 ds init < (init + 1) * 10 ^ ds.length := by
  induction ds generalizing init with
  | nil => simp
  | cons c cs ih =>
      have hc : c.toNat - '0'.toNat ≤ 9 := by
        have hdigit := h c List.mem_cons_self
        simp only [Char.isDigit, Bool.and_eq_true, decide_eq_true_eq] at hdigit
        have hle : c.toNat ≤ 57 := hdigit.2
        exact Nat.sub_le_sub_right hle 48
      rw [Nat.ofDigitChars_cons, List.length_cons, pow_succ']
      refine (ih (fun d hd => h d (List.mem_cons_of_mem _ hd)) _).trans_le ?_
      rw [← Nat.mul_assoc]
      exact Nat.mul_le_mul_right _ (by omega)

/-- A number that is not zero has no more digits than it was read from. -/
theorem length_toDigits_ofDigitChars {ds : List Char} (h : AllDigits ds)
    (hne : Nat.ofDigitChars 10 ds 0 ≠ 0) :
    (Nat.toDigits 10 (Nat.ofDigitChars 10 ds 0)).length ≤ ds.length := by
  have hpos : 0 < ds.length := by
    refine List.length_pos_iff.mpr ?_
    rintro rfl
    exact hne rfl
  have hlt := ofDigitChars_lt h 0
  rw [Nat.zero_add, Nat.one_mul] at hlt
  exact (Nat.length_toDigits_le_iff (by omega) hpos).mpr hlt

/-! ### Numerals -/

theorem noExponentMark_of_isDigit {c : Char} (h : c.isDigit = true) : noExponentMark c = true := by
  unfold noExponentMark
  rw [Bool.and_eq_true, bne_iff_ne, bne_iff_ne]
  constructor <;>
    · rintro rfl
      exact absurd h (by decide)

namespace Numeral

variable {sign : Sign} {whole : List Char} {fraction : Option (List Char)} {power : Option Power}

theorem filter_isDigit {ds : List Char} (h : AllDigits ds) : ds.filter Char.isDigit = ds :=
  List.filter_eq_self.mpr h

/-- Before its exponent a numeral has no character that could open one. -/
theorem noExponentMark_of_mem (hwhole : AllDigits whole)
    (hfraction : ∀ places ∈ fraction, AllDigits places) :
    ∀ c ∈ sign.text ++ whole ++ fractionText fraction, noExponentMark c = true := by
  intro c hc
  rcases List.mem_append.mp hc with hc | hc
  · rcases List.mem_append.mp hc with hc | hc
    · cases sign <;> simp [Sign.text] at hc <;> rw [hc] <;> decide
    · exact noExponentMark_of_isDigit (hwhole c hc)
  · cases fraction with
    | none => simp [fractionText] at hc
    | some places =>
        rcases List.mem_cons.mp hc with rfl | hc
        · decide
        · exact noExponentMark_of_isDigit (hfraction places rfl c hc)

/-- A numeral shows the digits before the point and those behind it. -/
theorem significantDigits_text (h : (decimal sign whole fraction power).WellFormed) :
    significantDigits (decimal sign whole fraction power).text
      = trimZeros (whole ++ fraction.getD []) := by
  cases h with
  | decimal hwhole hfraction _ hpower =>
      have hpowerText : (powerText power).takeWhile noExponentMark = [] := by
        cases power with
        | none => rfl
        | some p =>
            rcases (hpower p rfl).letter with hl | hl <;>
              simp [powerText, Power.text, hl, noExponentMark]
      have hsign : sign.text.filter Char.isDigit = [] := by
        cases sign <;> rfl
      have hplaces : (fractionText fraction).filter Char.isDigit = fraction.getD [] := by
        cases fraction with
        | none => rfl
        | some places =>
            exact (List.filter_cons_of_neg (by decide)).trans
              (filter_isDigit (hfraction places rfl))
      unfold significantDigits text
      rw [List.takeWhile_append_of_pos (noExponentMark_of_mem hwhole hfraction), hpowerText,
        List.append_nil, List.filter_append, List.filter_append, hsign, filter_isDigit hwhole,
        hplaces, List.nil_append]

/-- The decimal of a numeral's significant digits has the numeral's magnitude. -/
theorem exists_magnitude_significantDigits (h : (decimal sign whole fraction power).WellFormed) :
    ∃ e : Int, (decimal sign whole fraction power).magnitude = Decimal.toRat
      ⟨Nat.ofDigitChars 10 (significantDigits (decimal sign whole fraction power).text) 0, e⟩ := by
  obtain ⟨a, b, hpadded⟩ := exists_trimZeros (whole ++ fraction.getD [])
  rw [significantDigits_text h]
  unfold magnitude
  dsimp only
  generalize trimZeros (whole ++ fraction.getD []) = ds at *
  have hcoefficient : Nat.ofDigitChars 10 (whole ++ fraction.getD []) 0
      = Nat.ofDigitChars 10 ds 0 * 10 ^ b := by
    rw [hpadded, Nat.ofDigitChars_append, Nat.ofDigitChars_append, Nat.ofDigitChars_replicate_zero,
      Nat.ofDigitChars_replicate_zero, Nat.mul_zero, Nat.mul_comm]
  rw [hcoefficient]
  exact ⟨_, Decimal.toRat_mul_pow _ _ _⟩

end Numeral

/-! ### Layouts -/

namespace Decimal

theorem getLast_toDigits (n : Nat) :
    (Nat.toDigits 10 n).getLast Nat.toDigits_ne_nil = (n % 10).digitChar := by
  by_cases hlt : n < 10
  · simp only [Nat.toDigits_of_lt_base hlt, List.getLast_singleton, Nat.mod_eq_of_lt hlt]
  · simp only [Nat.toDigits_of_base_le (show 1 < 10 by omega) (Nat.le_of_not_lt hlt),
      List.getLast_concat]

/-- A coefficient that ten does not divide has no zeros to trim. -/
theorem trimZeros_digits {d : Decimal} (h : d.coefficient % 10 ≠ 0) (a b : Nat) :
    trimZeros (List.replicate a '0' ++ (d.digits ++ List.replicate b '0')) = d.digits := by
  refine trimZeros_padded d.digits_ne_nil (head_toDigits (by omega)) ?_ a b
  have hlast : d.digits.getLast d.digits_ne_nil = (d.coefficient % 10).digitChar :=
    getLast_toDigits d.coefficient
  rw [hlast]
  exact digitChar_ne_zero _ (Nat.mod_lt _ (by omega)) (Nat.pos_of_ne_zero h)

end Decimal

namespace Layout

/-- A layout puts zeros around the digits and nothing else. -/
theorem exists_padding (l : Layout) (sign : Sign) (d : Decimal) :
    ∃ whole fraction power a b, l.numeral sign d = .decimal sign whole fraction power ∧
      whole ++ fraction.getD [] = List.replicate a '0' ++ (d.digits ++ List.replicate b '0') := by
  unfold numeral positionalNumeral scientificNumeral
  split
  · split
    · refine ⟨_, _, _, 0, d.exponent.toNat + l.keepsFraction.toNat, rfl, ?_⟩
      cases l.keepsFraction <;> simp [List.replicate_succ']
    · split
      · refine ⟨_, _, _, 0, 0, rfl, ?_⟩
        simp
      · refine ⟨_, _, _, (-d.size - 1).toNat + 1, 0, rfl, ?_⟩
        simp [List.replicate_succ]
  · refine ⟨_, _, _, 0, 0, rfl, ?_⟩
    split
    · next hone => simp [List.take_of_length_le hone.le]
    · simp only [Option.getD_some, List.take_append_drop, List.replicate_zero, List.nil_append,
        List.append_nil]

/-- **A layout shows the digits of the shortest decimal.** -/
theorem significantDigits_write (l : Layout) (s : Bool) {r : Rank} (hr : r.val ≠ 0) :
    significantDigits (l.write (.finite s r)) = (Decimal.shortest l.tie r).digits := by
  have hwf := l.wellFormed_numeral (Sign.ofBool s) (Decimal.shortest l.tie r)
  obtain ⟨whole, fraction, power, a, b, hform, hpadded⟩ :=
    l.exists_padding (Sign.ofBool s) (Decimal.shortest l.tie r)
  rw [l.write_finite]
  rw [hform] at hwf ⊢
  rw [Numeral.significantDigits_text hwf, hpadded]
  exact Decimal.trimZeros_digits (Decimal.coefficient_mod_ten l.tie hr) a b

/-- Zero has no significant digits. -/
theorem significantDigits_write_zero (l : Layout) (s : Bool) {r : Rank} (hr : r.val = 0) :
    significantDigits (l.write (.finite s r)) = [] := by
  have hwf := l.wellFormed_numeral (Sign.ofBool s) (Decimal.shortest l.tie r)
  obtain ⟨whole, fraction, power, a, b, hform, hpadded⟩ :=
    l.exists_padding (Sign.ofBool s) (Decimal.shortest l.tie r)
  have hdigits : (Decimal.shortest l.tie r).digits = List.replicate 1 '0' := by
    unfold Decimal.shortest
    rw [if_pos hr]
    decide
  rw [l.write_finite]
  rw [hform] at hwf ⊢
  rw [Numeral.significantDigits_text hwf, hpadded, hdigits, List.replicate_append_replicate,
    List.replicate_append_replicate, trimZeros_replicate]

/-- **No numeral with the same value has fewer significant digits.** -/
theorem length_significantDigits_write_le (l : Layout) {x : Binary64} (hx : x.isFinite = true)
    {n : Numeral} (hn : n.WellFormed) (hvalue : n.value = x) :
    (significantDigits (l.write x)).length ≤ (significantDigits n.text).length := by
  obtain ⟨s, r, rfl⟩ := Binary64.exists_of_isFinite hx
  by_cases hr : r.val = 0
  · rw [l.significantDigits_write_zero s hr]
    exact Nat.zero_le _
  · cases n with
    | infinity sign => simp [Numeral.value] at hvalue
    | decimal sign whole fraction power =>
        obtain ⟨e, hmagnitude⟩ := Numeral.exists_magnitude_significantDigits hn
        have hdigits := allDigits_significantDigits
          (Numeral.decimal sign whole fraction power).text
        rw [l.significantDigits_write s hr]
        generalize significantDigits (Numeral.decimal sign whole fraction power).text = ds at *
        rw [Numeral.value_eq_ofDecimal hmagnitude, Decimal.ofDecimal_eq_finite_iff] at hvalue
        have hne := Decimal.coefficient_ne_zero hr hvalue.2
        refine (Decimal.length_digits_le l.tie hr hvalue.2).trans ?_
        exact length_toDigits_ofDigitChars hdigits hne

/-- An exponent is written exactly where a number is not written positionally. -/
theorem exponentMark_mem_write_iff (l : Layout) (s : Bool) (r : Rank) :
    'e' ∈ l.write (.finite s r) ↔ l.isPositional (Decimal.shortest l.tie r).size = false := by
  have hwf := l.wellFormed_numeral (Sign.ofBool s) (Decimal.shortest l.tie r)
  rw [l.write_finite]
  unfold numeral at *
  by_cases hpositional : l.isPositional (Decimal.shortest l.tie r).size = true
  · obtain ⟨whole, fraction, hform⟩ := l.exists_positionalNumeral_eq (Sign.ofBool s)
      (Decimal.shortest l.tie r)
    rw [if_pos hpositional, hform] at hwf ⊢
    cases hwf with
    | decimal hwhole hfraction _ _ =>
        simp only [hpositional, Bool.true_eq_false, iff_false, Numeral.text, Numeral.powerText,
          List.append_nil]
        intro hmem
        exact absurd (Numeral.noExponentMark_of_mem hwhole hfraction _ hmem) (by decide)
  · rw [if_neg hpositional]
    simp only [Bool.not_eq_true] at hpositional
    simp [hpositional, scientificNumeral, Numeral.text, Numeral.powerText, power, Power.text]

end Layout

end Planar
