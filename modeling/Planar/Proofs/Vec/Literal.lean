/-
The readers of vectors agree on number literals.

There are two ways from a literal to a number.  The reader of plain texts scans a
numeral and rounds what it denotes.  The readers of JSON look at a token, and that
of a whole number of at most 64 bits holds the whole number, which is rounded later.
Both ways end at the number nearest to the literal's value, with the literal's sign:
the token's number is that of the numeral by `Json.Literal.exists_ofNumeral`, and
between the token and the components nothing is rounded again.
-/
import Planar.Proofs.Vec.Json
import Planar.Proofs.Vec.Text

namespace Planar

open Json (Literal Number Scalar TokenText pairText recordText)

/-! ### Whole numbers -/

/-- The literal of a whole number with a sign. -/
def Json.Literal.ofNat (negative : Bool) (n : Nat) : Literal where
  negative := negative
  whole := Nat.toDigits 10 n
  fraction := none
  power := none
  allDigits_whole := allDigits_toDigits n
  whole_ne_nil := Nat.toDigits_ne_nil
  leading_zero h := by
    have hzero : n = 0 := by
      by_contra hne
      exact head_toDigits (Nat.pos_of_ne_zero hne) h
    rw [hzero]
    rfl
  fraction_digits places h := by simp at h
  wellFormed_power p h := by simp at h

theorem Json.Literal.value_ofNat (negative : Bool) (n : Nat) :
    (Literal.ofNat negative n).value = Binary64.signFactor negative * n := by
  show Binary64.signFactor negative
    * ((Nat.ofDigitChars 10 (Nat.toDigits 10 n ++ []) 0 : Nat) * 10 ^ ((0 : Int) - (0 : Nat))) = _
  rw [List.append_nil, Nat.ofDigitChars_ten_toDigits]
  simp

/-- Whole numbers of 64 bits do not overflow. -/
theorem Json.Literal.abs_value_ofNat_lt (negative : Bool) {n : Nat} (h : n ≤ 2 ^ 64) :
    |(Literal.ofNat negative n).value| < Binary64.overflow := by
  have hn : (n : ℚ) ≤ 2 ^ 64 := by exact_mod_cast h
  have hpow : (2 : ℚ) ^ 64 < 2 ^ 1023 := pow_lt_pow_right₀ (by norm_num) (by norm_num)
  rw [Literal.value_ofNat, abs_mul, Binary64.abs_signFactor, one_mul, Nat.abs_cast]
  exact hn.trans_lt (hpow.trans_le Binary64.pow_le_overflow)

/-! ### The readers -/

/-- The token of a literal that can be represented holds the number of the numeral. -/
theorem Json.Literal.exists_tokenText (a : Literal) (h : a.numeral.value.isFinite = true) :
    ∃ n : Number, TokenText a.text (.scalar (.number n)) ∧ n.toBinary64 = a.numeral.value := by
  obtain ⟨n, htoken, hn⟩ := a.exists_ofNumeral h
  refine ⟨n, ?_, hn⟩
  rw [← htoken]
  exact a.tokenText

theorem StrictReader.readPair_number (m n : Number) :
    readPair (.number m) (.number n) = .ok ⟨m.toBinary64, n.toBinary64⟩ := rfl

namespace Vec

/-- Two literals with a comma between them are read as their numerals' values. -/
theorem ofText_literals (a b : Literal) :
    (ofText (String.ofList (a.text ++ ',' :: b.text))).value
      = ⟨a.numeral.value, b.numeral.value⟩ := by
  have ha := a.wellFormed_numeral
  have hb := b.wellFormed_numeral
  show (ofText (String.ofList (a.numeral.text ++ ',' :: b.numeral.text))).value = _
  rw [ofText_join (comma_not_mem_text ha) (comma_not_mem_text hb), readNumber_text ha,
    readNumber_text hb]
  rfl

/-- **Two literals below the overflow are read alike by all readers, each as the
number nearest to its value and with its sign.** -/
theorem readers_agree (a b : Literal) (ha : |a.value| < Binary64.overflow)
    (hb : |b.value| < Binary64.overflow) :
    ∃ v : Vec,
      (Binary64.IsNearest a.value v.x ∧ v.x.isNegative = a.negative) ∧
      (Binary64.IsNearest b.value v.y ∧ v.y.isNegative = b.negative) ∧
      (ofText (String.ofList (a.text ++ ',' :: b.text))).value = v ∧
      (∃ j, Json.parse? (pairText a.text b.text) = some j ∧ (ofJson j).value = v) ∧
      (∃ j, Json.parse? (recordText a.text b.text) = some j ∧ (ofJson j).value = v) ∧
      ofJsonText (String.ofList (pairText a.text b.text)) = .ok v ∧
      ofJsonText (String.ofList (recordText a.text b.text)) = .ok v := by
  have hna := a.isNearest_value ha
  have hnb := b.isNearest_value hb
  obtain ⟨m, htm, hm⟩ := a.exists_tokenText hna.isFinite
  obtain ⟨n, htn, hn⟩ := b.exists_tokenText hnb.isFinite
  refine ⟨⟨a.numeral.value, b.numeral.value⟩, ⟨hna, a.isNegative_value⟩,
    ⟨hnb, b.isNegative_value⟩, ofText_literals a b, ?_⟩
  rw [← hm, ← hn]
  refine ⟨⟨_, Json.parse?_pairText htm htn, value_ofJson_array _ _⟩,
    ⟨_, Json.parse?_recordText htm htn, value_ofJson_object _ _⟩, ?_, ?_⟩
  · unfold ofJsonText
    rw [String.toList_ofList, readStrictly_pairText .vector htm htn]
    exact StrictReader.readPair_number m n
  · unfold ofJsonText
    rw [String.toList_ofList, readStrictly_recordText .vector htm htn]
    exact StrictReader.readPair_number m n

/-- A whole number halfway between two numbers, and the negative zero. -/
theorem readers_agree_halfway :
    (|(Literal.ofNat false 9007199254740993).value| < Binary64.overflow ∧
      |(Literal.ofNat true 0).value| < Binary64.overflow) ∧
    ∃ v : Vec,
      (ofText (String.ofList ((Literal.ofNat false 9007199254740993).text
        ++ ',' :: (Literal.ofNat true 0).text))).value = v ∧
      ofJsonText (String.ofList (pairText (Literal.ofNat false 9007199254740993).text
        (Literal.ofNat true 0).text)) = .ok v := by
  have hhalf := Literal.abs_value_ofNat_lt false (n := 9007199254740993) (by norm_num)
  have hzero := Literal.abs_value_ofNat_lt true (n := 0) (by norm_num)
  obtain ⟨v, -, -, htext, -, -, hpair, -⟩ := readers_agree _ _ hhalf hzero
  exact ⟨⟨hhalf, hzero⟩, v, htext, hpair⟩

end Vec

end Planar
