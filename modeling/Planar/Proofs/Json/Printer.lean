/-
What the printer writes for a number is one token.

A number that is not whole is laid out with a fraction or with an exponent, so its
text is a literal that the reader of tokens does not take for a whole number, and
the token holds the number that was printed (`tokenText_write`).  Leading zeros are
the point where this could fail: the digits of a coefficient start with a zero only
if it is zero, and then no zeros are written behind it, because zero has the
exponent zero.
-/
import Planar.Json.Printer
import Planar.Proofs.Json.Literal

namespace Planar

theorem Decimal.coefficient_of_head {d : Decimal} (h : d.digits.head? = some '0') :
    d.coefficient = 0 := by
  by_contra hne
  exact head_toDigits (Nat.pos_of_ne_zero hne) h

namespace Json

/-! ### The literal -/

/-- The printer's form of a decimal, part by part: no leading zeros, no point
without digits behind it, and a fraction or a power. -/
theorem exists_parts (sign : Sign) {d : Decimal} (hd : d.coefficient = 0 → d.exponent = 0) :
    ∃ whole fraction power, realLayout.numeral sign d = .decimal sign whole fraction power ∧
      whole ≠ [] ∧ (whole.head? = some '0' → whole = ['0']) ∧ fraction ≠ some [] ∧
      (fraction ≠ none ∨ power ≠ none) := by
  have hne := d.digits_ne_nil
  have hpos := d.length_digits_pos
  have hsize : d.size = d.exponent + d.digits.length - 1 := rfl
  have hzero : d.digits.head? = some '0' → d.exponent = 0 ∧ d.digits = ['0'] := by
    intro h
    have hc := Decimal.coefficient_of_head h
    refine ⟨hd hc, ?_⟩
    unfold Decimal.digits
    rw [hc]
    rfl
  have hhead (n : Nat) : (d.digits.take (n + 1)).head? = d.digits.head? := by
    simp [List.head?_take]
  unfold Layout.numeral Layout.positionalNumeral Layout.scientificNumeral
  split
  · split
    · -- a whole number, with zeros behind its digits and the fraction `.0`
      refine ⟨_, _, _, rfl, by simp [hne], ?_, by simp [realLayout], Or.inl (by simp [realLayout])⟩
      intro h
      rw [List.head?_append_of_ne_nil _ hne] at h
      simp [hzero h]
    · next hexp =>
      split
      · -- a point between the digits
        refine ⟨_, _, _, rfl, by simp [hne], ?_, ?_, Or.inl (by simp)⟩
        · intro h
          rw [hhead] at h
          exact absurd (hzero h).1.ge hexp
        · intro h
          have hdrop := List.drop_eq_nil_iff.mp (Option.some.inj h)
          omega
      · -- a point before the digits
        exact ⟨_, _, _, rfl, by simp, fun _ => rfl, by simp [hne], Or.inl (by simp)⟩
  · -- one digit before the point, and a power
    refine ⟨_, _, _, rfl, by simp [hne], ?_, ?_, Or.inr (by simp)⟩
    · intro h
      rw [hhead] at h
      rw [(hzero h).2]
      rfl
    · split
      · simp
      · intro h
        have hdrop := List.drop_eq_nil_iff.mp (Option.some.inj h)
        omega

/-- The printer's form of a decimal is a literal that is not a whole number. -/
theorem exists_literal (s : Bool) {d : Decimal} (hd : d.coefficient = 0 → d.exponent = 0) :
    ∃ a : Literal, a.numeral = realLayout.numeral (Sign.ofBool s) d ∧
      (a.fraction ≠ none ∨ a.power ≠ none) := by
  have hwf := realLayout.wellFormed_numeral (Sign.ofBool s) d
  obtain ⟨whole, fraction, power, hform, hne, hzero, hplaces, hreal⟩ :=
    exists_parts (Sign.ofBool s) hd
  rw [hform] at hwf ⊢
  cases hwf with
  | decimal hwhole hfraction _ hpower =>
      refine ⟨⟨s, whole, fraction, power, hwhole, hne, hzero, ?_, hpower⟩, rfl, hreal⟩
      intro places hmem
      refine ⟨?_, hfraction places hmem⟩
      rintro rfl
      exact hplaces hmem

/-! ### The token -/

theorem Literal.ofNumeral_of_real (a : Literal) (h : a.fraction ≠ none ∨ a.power ≠ none) :
    Token.ofNumeral a.numeral = Token.ofReal a.numeral.value := by
  unfold Literal.numeral
  cases hf : a.fraction with
  | some places => rfl
  | none =>
      cases hp : a.power with
      | some p => rfl
      | none => simp [hf, hp] at h

/-- **A finite number, printed, is the token of that number.** -/
theorem tokenText_write (s : Bool) (r : Rank) :
    TokenText (realLayout.write (.finite s r)) (.scalar (.number (.real (.finite s r)))) := by
  obtain ⟨a, hnumeral, hreal⟩ :=
    exists_literal s (Decimal.exponent_shortest_of_coefficient realLayout.tie r)
  have htext : a.text = realLayout.write (.finite s r) := by
    unfold Literal.text
    rw [hnumeral, realLayout.write_finite]
  have hvalue : a.numeral.value = .finite s r := by
    rw [hnumeral, Layout.value_numeral_shortest, Sign.isMinus_ofBool]
  have htoken := a.tokenText
  rw [a.ofNumeral_of_real hreal, hvalue, htext] at htoken
  exact htoken

end Json

end Planar
