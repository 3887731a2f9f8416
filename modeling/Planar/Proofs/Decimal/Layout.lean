/-
What a layout writes is a numeral.

A layout moves the point about, pads with zeros and adds a fraction or an exponent
that the digits do not have.  Here each of its forms is given as a numeral, part by
part (`Layout.numeral`).  Of that numeral three things are shown: its text is what
the layout writes (`text_numeral`), it keeps to the grammar (`wellFormed_numeral`),
and it denotes the decimal it was made from (`magnitude_numeral`).

Together with the scan of a written numeral and the shortest decimal's reading
back, this is the round trip of a single number through any layout
(`value_numeral_shortest`).
-/
import Planar.Decimal.Layout
import Planar.Proofs.Decimal.Shortest
import Planar.Proofs.Numeral.Scan

namespace Planar

/-! ### Digits -/

theorem digitChar_ne_zero : ∀ n < 10, 0 < n → n.digitChar ≠ '0' := by
  decide

theorem head_toDigits {n : Nat} (hn : 0 < n) : (Nat.toDigits 10 n).head? ≠ some '0' := by
  induction n using Nat.strong_induction_on with
  | _ n ih =>
      by_cases hlt : n < 10
      · rw [Nat.toDigits_of_lt_base hlt]
        intro h
        exact digitChar_ne_zero n hlt hn (Option.some.inj h)
      · have hdiv : 0 < n / 10 := by omega
        rw [Nat.toDigits_of_base_le (by omega) (by omega),
          List.head?_append_of_ne_nil _ Nat.toDigits_ne_nil]
        exact ih (n / 10) (by omega) hdiv

namespace Decimal

theorem allDigits_digits (d : Decimal) : AllDigits d.digits := allDigits_toDigits d.coefficient

theorem digits_ne_nil (d : Decimal) : d.digits ≠ [] := Nat.toDigits_ne_nil

theorem length_digits_pos (d : Decimal) : 0 < d.digits.length :=
  List.length_pos_iff.mpr d.digits_ne_nil

theorem ofDigitChars_digits (d : Decimal) : Nat.ofDigitChars 10 d.digits 0 = d.coefficient :=
  Nat.ofDigitChars_ten_toDigits

end Decimal

namespace Layout

/-! ### The numeral of each form -/

/-- The numeral of the positional form. -/
def positionalNumeral (l : Layout) (sign : Sign) (d : Decimal) : Numeral :=
  if 0 ≤ d.exponent then
    .decimal sign (d.digits ++ List.replicate d.exponent.toNat '0')
      (if l.keepsFraction then some ['0'] else none) none
  else if 0 ≤ d.size then
    .decimal sign (d.digits.take (d.size.toNat + 1)) (some (d.digits.drop (d.size.toNat + 1))) none
  else
    .decimal sign ['0'] (some (List.replicate (-d.size - 1).toNat '0' ++ d.digits)) none

/-- The power of the scientific form. -/
def power (l : Layout) (e : Int) : Power :=
  ⟨'e', if e < 0 then .minus else if l.marksPlus then .plus else .bare, Nat.toDigits 10 e.natAbs⟩

/-- The numeral of the scientific form. -/
def scientificNumeral (l : Layout) (sign : Sign) (d : Decimal) : Numeral :=
  .decimal sign (d.digits.take 1) (if d.digits.length = 1 then none else some (d.digits.drop 1))
    (some (l.power d.size))

/-- The numeral that a layout writes for a decimal. -/
def numeral (l : Layout) (sign : Sign) (d : Decimal) : Numeral :=
  if l.isPositional d.size then l.positionalNumeral sign d else l.scientificNumeral sign d

theorem exists_positionalNumeral_eq (l : Layout) (sign : Sign) (d : Decimal) :
    ∃ whole fraction, l.positionalNumeral sign d = .decimal sign whole fraction none := by
  unfold positionalNumeral
  split
  · exact ⟨_, _, rfl⟩
  · split <;> exact ⟨_, _, rfl⟩

/-! ### Its text -/

theorem text_power (l : Layout) (e : Int) : (l.power e).text = 'e' :: l.exponentDigits e := by
  unfold power Power.text exponentDigits
  by_cases he : e < 0
  · simp [he, Sign.text]
  · by_cases hp : l.marksPlus = true <;> simp [he, hp, Sign.text]

theorem text_positionalNumeral (l : Layout) (sign : Sign) (d : Decimal) :
    (l.positionalNumeral sign d).text = sign.text ++ l.positional d := by
  unfold positionalNumeral positional
  dsimp only
  split
  · split <;> simp [Numeral.text, Numeral.fractionText, Numeral.powerText]
  · split <;> simp [Numeral.text, Numeral.fractionText, Numeral.powerText]

theorem text_scientificNumeral (l : Layout) (sign : Sign) (d : Decimal) :
    (l.scientificNumeral sign d).text = sign.text ++ l.scientific d := by
  have hpos := d.length_digits_pos
  unfold scientificNumeral scientific
  generalize d.digits = ds at *
  match ds with
  | [] => simp at hpos
  | [first] => simp [Numeral.text, Numeral.fractionText, Numeral.powerText, text_power]
  | first :: second :: rest =>
      simp [Numeral.text, Numeral.fractionText, Numeral.powerText, text_power]

/-- **The text of the numeral is what the layout writes.** -/
theorem text_numeral (l : Layout) (sign : Sign) (d : Decimal) :
    (l.numeral sign d).text = sign.text ++ l.decimal d := by
  unfold numeral decimal
  split
  · exact l.text_positionalNumeral sign d
  · exact l.text_scientificNumeral sign d

/-! ### Its grammar -/

theorem wellFormed_power (l : Layout) (e : Int) : (l.power e).WellFormed :=
  ⟨Or.inl rfl, allDigits_toDigits _, Nat.toDigits_ne_nil⟩

theorem wellFormed_numeral (l : Layout) (sign : Sign) (d : Decimal) :
    (l.numeral sign d).WellFormed := by
  have hdigits := d.allDigits_digits
  have hpos := d.length_digits_pos
  have htake (n : Nat) : AllDigits (d.digits.take n) := fun c hc => hdigits c (List.mem_of_mem_take hc)
  have hdrop (n : Nat) : AllDigits (d.digits.drop n) := fun c hc => hdigits c (List.mem_of_mem_drop hc)
  have hzero : AllDigits ['0'] := allDigits_replicate_zero 1
  have hfirst (n : Nat) : d.digits.take (n + 1) ≠ [] := by
    simp [d.digits_ne_nil]
  unfold numeral positionalNumeral scientificNumeral
  split
  · split
    · refine .decimal (hdigits.append (allDigits_replicate_zero _)) ?_ (Or.inl ?_) (by simp)
      · intro places hmem
        split at hmem
        · obtain rfl : ['0'] = places := by simpa using hmem
          exact hzero
        · simp at hmem
      · simp [d.digits_ne_nil]
    · split
      · refine .decimal (htake _) ?_ (Or.inl (hfirst _)) (by simp)
        intro places hmem
        obtain rfl : _ = places := by simpa using hmem
        exact hdrop _
      · refine .decimal hzero ?_ (Or.inl (by simp)) (by simp)
        intro places hmem
        obtain rfl : _ = places := by simpa using hmem
        exact (allDigits_replicate_zero _).append hdigits
  · refine .decimal (htake _) ?_ (Or.inl (hfirst 0)) ?_
    · intro places hmem
      split at hmem
      · simp at hmem
      · obtain rfl : d.digits.drop 1 = places := Option.some.inj hmem
        exact hdrop 1
    · intro p hmem
      obtain rfl : _ = p := by simpa using hmem
      exact l.wellFormed_power _

/-! ### Its value -/

theorem value_power (l : Layout) (e : Int) : (l.power e).value = e := by
  unfold power Power.value
  dsimp only
  rw [Nat.ofDigitChars_ten_toDigits]
  by_cases he : e < 0
  · simp only [he, if_true, Sign.isMinus, decide_true]
    omega
  · by_cases hp : l.marksPlus = true <;>
      simp only [he, hp, if_true, if_false, Sign.isMinus, reduceCtorEq, decide_false,
        Bool.false_eq_true] <;>
      omega

/-- A whole number whose zeros are written out, with or without a fraction. -/
theorem magnitude_padded (sign : Sign) (d : Decimal) (he : 0 ≤ d.exponent) (keepsFraction : Bool) :
    (Numeral.decimal sign (d.digits ++ List.replicate d.exponent.toNat '0')
      (if keepsFraction then some ['0'] else none) none).magnitude = d.toRat := by
  obtain ⟨k, hk⟩ := Int.eq_ofNat_of_zero_le he
  have hpadded : Nat.ofDigitChars 10 (d.digits ++ List.replicate k '0') 0
      = 10 ^ k * d.coefficient := by
    rw [Nat.ofDigitChars_append, Nat.ofDigitChars_replicate_zero, d.ofDigitChars_digits]
  have hfraction : Nat.ofDigitChars 10 (d.digits ++ List.replicate k '0' ++ ['0']) 0
      = 10 * (10 ^ k * d.coefficient) := by
    rw [Nat.ofDigitChars_append, hpadded]
    rfl
  unfold Numeral.magnitude Decimal.toRat
  rw [hk, Int.toNat_natCast, zpow_natCast]
  cases keepsFraction
  · simp [hpadded]
    ring
  · simp only [if_true, Option.getD_some, hfraction]
    push_cast
    simp
    ring

/-- A coefficient whose digits are split by a point. -/
theorem magnitude_split {sign : Sign} {whole places : List Char} {power : Option Power}
    {d : Decimal} (hdigits : Nat.ofDigitChars 10 (whole ++ places) 0 = d.coefficient)
    (hexp : (power.map Power.value).getD 0 - places.length = d.exponent) :
    (Numeral.decimal sign whole (some places) power).magnitude = d.toRat := by
  simp only [Numeral.magnitude, Option.getD_some, hdigits, hexp, Decimal.toRat]

theorem magnitude_numeral (l : Layout) (sign : Sign) (d : Decimal) :
    (l.numeral sign d).magnitude = d.toRat := by
  have hdigits := d.ofDigitChars_digits
  have hpos := d.length_digits_pos
  have hsize : d.size = d.exponent + d.digits.length - 1 := rfl
  unfold numeral positionalNumeral scientificNumeral
  split
  · split
    · next he => exact magnitude_padded sign d he l.keepsFraction
    · split
      · next he hs =>
        refine magnitude_split ?_ ?_
        · rw [List.take_append_drop, hdigits]
        · simp only [Option.map_none, Option.getD_none, List.length_drop]
          omega
      · next he hs =>
        refine magnitude_split ?_ ?_
        · rw [Nat.ofDigitChars_append, Nat.ofDigitChars_append, Nat.ofDigitChars_replicate_zero]
          simpa [Nat.ofDigitChars_cons] using hdigits
        · simp only [Option.map_none, Option.getD_none, List.length_append, List.length_replicate]
          omega
  · split
    · next hone =>
      have htake : d.digits.take 1 = d.digits := List.take_of_length_le hone.le
      unfold Numeral.magnitude Decimal.toRat
      simp only [Option.getD_none, List.append_nil, htake, hdigits, Option.map_some,
        Option.getD_some, value_power, List.length_nil]
      congr 2
      omega
    · next hone =>
      refine magnitude_split ?_ ?_
      · rw [List.take_append_drop, hdigits]
      · simp only [Option.map_some, Option.getD_some, value_power, List.length_drop]
        omega

/-! ### One number -/

/-- The numeral of the shortest decimal has the value that it was made from. -/
theorem value_numeral_shortest (l : Layout) (sign : Sign) (r : Rank) :
    (l.numeral sign (Decimal.shortest l.tie r)).value = .finite sign.isMinus r := by
  have hmag := l.magnitude_numeral sign (Decimal.shortest l.tie r)
  have hform : ∃ whole fraction power,
      l.numeral sign (Decimal.shortest l.tie r) = .decimal sign whole fraction power := by
    unfold numeral scientificNumeral
    split
    · obtain ⟨whole, fraction, hpositional⟩ :=
        l.exists_positionalNumeral_eq sign (Decimal.shortest l.tie r)
      exact ⟨whole, fraction, none, hpositional⟩
    · exact ⟨_, _, _, rfl⟩
  obtain ⟨whole, fraction, power, hform⟩ := hform
  rw [hform] at hmag ⊢
  rw [Numeral.value_eq_ofDecimal hmag, Decimal.ofDecimal_shortest]

end Layout

end Planar
