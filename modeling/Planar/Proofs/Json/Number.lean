/-
The numbers of JSON texts are finite.

A token holds a whole number only if it fits 64 bits, and any other number only if it
is finite; a number beyond that is a token of its own.  So whatever is read from a
text as a number is in range, wherever in the text it stands (`inRange_of_mem_tokens`),
and as a binary64 number it is finite.  A value is in range if all numbers in it are,
and a value that was read from a text always is.
-/
import Planar.Proofs.Binary64.Value
import Planar.Proofs.Json.Grammar

namespace Planar.Json

/-- What a number of a JSON value can be: a whole number of 64 bits, with or without a
sign, or a finite number. -/
def Number.InRange : Number → Prop
  | integer n => -2 ^ 63 ≤ n ∧ n < 2 ^ 64
  | real x => x.isFinite = true

/-- Every number that occurs in the value is in range. -/
def InRange (j : Json) : Prop := ∀ n : Number, Token.scalar (.number n) ∈ j.toTokens → n.InRange

/-! ### Reading -/

theorem inRange_of_ofReal {x : Binary64} {n : Number}
    (h : Token.ofReal x = .scalar (.number n)) : n.InRange := by
  unfold Token.ofReal at h
  split at h
  · next hx =>
    cases h
    exact hx
  · cases h

theorem inRange_of_ofNumeral {m : Numeral} {n : Number}
    (h : Token.ofNumeral m = .scalar (.number n)) : n.InRange := by
  unfold Token.ofNumeral at h
  split at h
  · next sign whole =>
    generalize Nat.ofDigitChars 10 whole 0 = size at h
    dsimp only at h
    split at h
    · split at h
      · next hsize =>
        cases h
        constructor <;> omega
      · exact inRange_of_ofReal h
    · split at h
      · next hsize =>
        cases h
        constructor <;> omega
      · exact inRange_of_ofReal h
  · exact inRange_of_ofReal h

theorem inRange_of_read {c : Char} {cs : List Char} {n : Number}
    (h : (Token.read c cs).1 = .scalar (.number n)) : n.InRange := by
  have hword (word : List Char) (s : Scalar) (hs : s ≠ .number n) :
      (wordToken word s cs).1 ≠ .scalar (.number n) := by
    unfold wordToken
    split
    · exact fun heq => hs (Token.scalar.inj heq)
    · simp
  unfold Token.read at h
  split at h
  case h_7 =>
    split at h
    · unfold Token.ofUnits at h
      split at h <;> simp at h
    · simp at h
  case h_8 => exact absurd h (hword _ _ (by simp))
  case h_9 => exact absurd h (hword _ _ (by simp))
  case h_10 => exact absurd h (hword _ _ (by simp))
  case h_11 =>
    -- Only a minus sign or a digit starts a number.
    split at h
    · split at h
      · split at h
        · exact inRange_of_ofNumeral h
        · simp at h
      · simp at h
    · simp at h
  all_goals simp at h

/-- **Whatever is read as a number is in range.** -/
theorem inRange_of_mem_tokens {cs : List Char} {n : Number}
    (h : Token.scalar (.number n) ∈ tokens cs) : n.InRange := by
  induction cs using tokens.induct with
  | case1 => simp [tokens] at h
  | case2 c cs hblank ih =>
      rw [tokens, if_pos hblank] at h
      exact ih h
  | case3 c cs hblank ih =>
      rw [tokens, if_neg hblank] at h
      rcases List.mem_cons.mp h with heq | hmem
      · exact inRange_of_read heq.symm
      · exact ih hmem

theorem inRange_of_parse? {cs : List Char} {j : Json} (h : parse? cs = some j) : j.InRange := by
  intro n hn
  rw [← tokens_of_parse? h] at hn
  exact inRange_of_mem_tokens hn

/-! ### Parts -/

theorem InRange.number {n : Number} (h : (scalar (.number n)).InRange) : n.InRange :=
  h n (by simp [toTokens])

theorem InRange.item {items : List Json} {v : Json} (h : (array items).InRange) (hv : v ∈ items) :
    v.InRange :=
  fun n hn => h n (mem_toTokens_item hv hn)

theorem InRange.member {members : List (String × Json)} {m : String × Json}
    (h : (object members).InRange) (hm : m ∈ members) : m.2.InRange :=
  fun n hn => h n (mem_toTokens_member hm hn)

/-! ### As binary64 numbers -/

theorem isFinite_ofInt {n : Int} (h : n.natAbs ≤ 2 ^ 64) : (Binary64.ofInt n).isFinite = true := by
  have hpow : (2 : ℚ) ^ 64 < 2 ^ 1023 := pow_lt_pow_right₀ (by norm_num) (by norm_num)
  have hn : (n.natAbs : ℚ) ≤ 2 ^ 64 := by exact_mod_cast h
  have hover : (n.natAbs : ℚ) < Binary64.overflow :=
    hn.trans_lt (hpow.trans_le Binary64.pow_le_overflow)
  have hunits : (n.natAbs : ℚ) * unitsInOne < Binary64.overflowUnits := by
    rw [Binary64.overflowUnits_eq]
    exact mul_lt_mul_of_pos_right hover Binary64.unitsInOne_cast_pos
  unfold Binary64.ofInt Binary64.ofRatio
  rw [Binary64.isFinite_ofUnits_iff _ Nat.one_pos, Nat.mul_one]
  exact_mod_cast hunits

theorem Number.InRange.isFinite {n : Number} (h : n.InRange) : n.toBinary64.isFinite = true := by
  cases n with
  | real x => exact h
  | integer n =>
      obtain ⟨hlow, hhigh⟩ := h
      exact isFinite_ofInt (by omega)

end Planar.Json
