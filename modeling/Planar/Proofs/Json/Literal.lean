/-
The number literals of JSON.

The grammar of RFC 8259 is given here as a type: a literal is its sign, its digits
before the point without a leading zero, the digits behind the point if there is
one, and a power if there is one.  It has a value, a rational number.

Two things are shown of it.  The reader of JSON texts takes a literal off the front
of a text as one token (`tokenText`).  And whatever kind of token that is,
a whole number of 64 bits or any other, its number is the one that the same
characters give as a numeral (`exists_ofNumeral`): the number nearest to the value
(`isNearest_value`).
-/
import Planar.Proofs.Json.Token
import Planar.Proofs.Reading

namespace Planar.Json

/-- A number literal of JSON. -/
structure Literal where
  negative : Bool
  whole : List Char
  fraction : Option (List Char)
  power : Option Power
  allDigits_whole : AllDigits whole
  whole_ne_nil : whole ≠ []
  leading_zero : whole.head? = some '0' → whole = ['0']
  fraction_digits : ∀ places ∈ fraction, places ≠ [] ∧ AllDigits places
  wellFormed_power : ∀ p ∈ power, p.WellFormed

namespace Literal

/-- The literal as a numeral. -/
def numeral (a : Literal) : Numeral :=
  .decimal (Sign.ofBool a.negative) a.whole a.fraction a.power

/-- The written literal. -/
def text (a : Literal) : List Char := a.numeral.text

/-- The rational number that a literal denotes. -/
def value (a : Literal) : ℚ := Binary64.signFactor a.negative * a.numeral.magnitude

theorem wellFormed_numeral (a : Literal) : a.numeral.WellFormed :=
  .decimal a.allDigits_whole (fun places h => (a.fraction_digits places h).2)
    (Or.inl a.whole_ne_nil) a.wellFormed_power

/-! ### As a token -/

theorem isJsonNumeral_numeral (a : Literal) {rest : List Char} (hr : Stops rest) :
    isJsonNumeral rest a.numeral = true := by
  have hsign : (Sign.ofBool a.negative != .plus) = true := by
    cases a.negative <;> decide
  have hwhole : (a.whole != []) = true := bne_iff_ne.mpr a.whole_ne_nil
  have hzero : (a.whole.head? != some '0' || a.whole.length == 1) = true := by
    by_cases h : a.whole.head? = some '0'
    · simp [a.leading_zero h]
    · simp [h]
  have hfraction : (a.fraction != some []) = true := by
    rw [bne_iff_ne]
    intro h
    exact (a.fraction_digits [] h).1 rfl
  have hrest : (rest.head? != some 'e' && rest.head? != some 'E') = true := by
    rw [Bool.and_eq_true, bne_iff_ne, bne_iff_ne]
    exact ⟨fun h => (hr 'e' h).2.2.1 rfl, fun h => (hr 'E' h).2.2.2 rfl⟩
  simp only [numeral, isJsonNumeral, hsign, hwhole, hzero, hfraction, hrest, Bool.or_true,
    Bool.and_self]

/-- A literal starts with a minus sign or a digit. -/
theorem exists_cons_text (a : Literal) :
    ∃ c cs, a.text = c :: cs ∧ (c = '-' ∨ c.isDigit = true) := by
  obtain ⟨d, ds, hds⟩ := List.exists_cons_of_ne_nil a.whole_ne_nil
  have hd : d.isDigit = true := a.allDigits_whole d (by simp [hds])
  unfold text numeral
  rw [hds]
  cases a.negative
  · exact ⟨d, _, rfl, Or.inr hd⟩
  · exact ⟨'-', _, rfl, Or.inl rfl⟩

/-- **A literal is taken off the front of a text as one token.** -/
theorem tokenText (a : Literal) : TokenText a.text (Token.ofNumeral a.numeral) := by
  intro rest hr
  obtain ⟨c, cs, htext, hc⟩ := a.exists_cons_text
  have hscan := Numeral.scan?_text_append a.wellFormed_numeral hr
  have hblank : isBlank c = false := by
    rcases hc with rfl | hd
    · rfl
    · unfold isBlank
      simp only [Bool.or_eq_false_iff, decide_eq_false_iff_not]
      refine ⟨⟨⟨?_, ?_⟩, ?_⟩, ?_⟩ <;> rintro rfl <;> exact absurd hd (by decide)
  change Numeral.scan? (a.text ++ rest) = _ at hscan
  rw [htext, List.cons_append] at hscan ⊢
  refine tokens_cons hblank ?_
  rw [read_number hc, hscan]
  simp only [a.isJsonNumeral_numeral hr, if_true]

/-! ### As a number -/

theorem ofDecimal_exponent_zero (s : Bool) {c : Nat} (hc : c ≠ 0) :
    Binary64.ofDecimal s c 0 = Binary64.ofRatio s c 1 := by
  unfold Binary64.ofDecimal
  rw [if_neg hc]
  simp

theorem toBinary64_integer (n : Nat) :
    (Number.integer n).toBinary64 = Binary64.ofDecimal false n 0 := by
  by_cases hn : n = 0
  · subst hn
    rfl
  · rw [ofDecimal_exponent_zero false hn]
    have hsign : decide ((n : Int) < 0) = false := by simp
    show Binary64.ofRatio (decide ((n : Int) < 0)) (n : Int).natAbs 1 = _
    rw [hsign, Int.natAbs_natCast]

theorem toBinary64_negative {n : Nat} (hn : 0 < n) :
    (Number.integer (-n)).toBinary64 = Binary64.ofDecimal true n 0 := by
  rw [ofDecimal_exponent_zero true hn.ne']
  unfold Number.toBinary64 Binary64.ofInt
  simp [hn]

theorem ofReal_of_isFinite {x : Binary64} (h : x.isFinite = true) :
    Token.ofReal x = .scalar (.number (.real x)) := by
  unfold Token.ofReal
  rw [if_pos h]

/-- **Whichever kind of number a literal's token holds, it is the number of the
numeral.** -/
theorem exists_ofNumeral (a : Literal) (h : a.numeral.value.isFinite = true) :
    ∃ n : Number, Token.ofNumeral a.numeral = .scalar (.number n) ∧
      n.toBinary64 = a.numeral.value := by
  have hreal : ∃ n : Number, Token.ofReal a.numeral.value = .scalar (.number n) ∧
      n.toBinary64 = a.numeral.value := ⟨.real _, ofReal_of_isFinite h, rfl⟩
  unfold numeral at *
  cases hf : a.fraction with
  | some places => rw [hf] at hreal; exact hreal
  | none =>
      cases hp : a.power with
      | some p => rw [hf, hp] at hreal; exact hreal
      | none =>
          rw [hf, hp] at hreal
          -- Only here, without fraction and power, can the token hold a whole number.
          have hvalue : (Numeral.decimal (Sign.ofBool a.negative) a.whole none none).value
              = Binary64.ofDecimal a.negative (Nat.ofDigitChars 10 a.whole 0) 0 := by
            simp [Numeral.value, Sign.isMinus_ofBool]
          unfold Token.ofNumeral
          dsimp only
          rw [Sign.isMinus_ofBool]
          cases hs : a.negative with
          | true =>
              rw [hs] at hreal hvalue
              simp only [if_true]
              split
              · next hsize => exact ⟨_, rfl, (toBinary64_negative hsize.1).trans hvalue.symm⟩
              · exact hreal
          | false =>
              rw [hs] at hreal hvalue
              simp only [Bool.false_eq_true, if_false]
              split
              · exact ⟨_, rfl, (toBinary64_integer _).trans hvalue.symm⟩
              · exact hreal

theorem value_numeral (a : Literal) :
    a.numeral.value = Binary64.ofDecimal a.negative
      (Nat.ofDigitChars 10 (a.whole ++ a.fraction.getD []) 0)
      ((a.power.map Power.value).getD 0 - (a.fraction.getD []).length) := by
  show Binary64.ofDecimal (Sign.ofBool a.negative).isMinus _ _ = _
  rw [Sign.isMinus_ofBool]

/-- Below the overflow a literal gives a nearest number. -/
theorem isNearest_value (a : Literal) (h : |a.value| < Binary64.overflow) :
    Binary64.IsNearest a.value a.numeral.value := by
  have hmag : a.numeral.magnitude < Binary64.overflow := by
    unfold value at h
    rw [abs_mul, Binary64.abs_signFactor, one_mul] at h
    exact lt_of_le_of_lt (le_abs_self _) h
  rw [value_numeral]
  exact Binary64.isNearest_ofDecimal a.negative hmag

/-- A minus sign makes the number negative, also when it is zero. -/
theorem isNegative_value (a : Literal) : a.numeral.value.isNegative = a.negative := by
  rw [value_numeral]
  exact Binary64.isNegative_ofDecimal a.negative _ _

end Literal

end Planar.Json
