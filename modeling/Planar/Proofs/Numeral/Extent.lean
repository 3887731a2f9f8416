/-
The numeral found by position is the longest one, and no position leaves the bytes.

`extent?` and `scan?` take the same numeral off the front of a text.  The invariant that
ties them together is `Stands b i cs`: the position `i` is not behind the end, and the bytes
from there on, read as characters of the same codes, are `cs`.  Under it each step of
`extent?` has a result, and moves by exactly as many bytes as the corresponding step of
`scan?` takes characters.  The invariant then holds again behind what was taken, because
nothing is lost on the way (`scan?_append` and its parts).  So the bytes, whatever they
are, have the extent of what `scan?` takes from their characters (`extent?_eq`).

For the bytes of a text those characters are not the text's, wherever it has others
than ASCII ones.  But a numeral has ASCII characters only, of one byte each.  Where its
bytes stand at the start, a start of the text was encoded into them, so that both
have the same numerals at their start (`prefix_byteChars_iff`).
-/
import Planar.Numeral.Extent
import Planar.Proofs.Numeral.Language
import Planar.Proofs.Reading

namespace Planar.Numeral

/-! ### Bytes as characters -/

/-- The characters whose codes are the given bytes. -/
def byteChars (bs : List UInt8) : List Char := bs.map Char.ofUInt8

theorem toNat_ofUInt8 (x : UInt8) : (Char.ofUInt8 x).toNat = x.toNat := UInt8.toNat_toUInt32 x

theorem isDigit_ofUInt8 (x : UInt8) : (Char.ofUInt8 x).isDigit = isDigitByte x := by
  have hval : (Char.ofUInt8 x).val = x.toUInt32 := rfl
  rw [Bool.eq_iff_iff]
  simp only [Char.isDigit, isDigitByte, hval, Bool.and_eq_true, decide_eq_true_eq,
    UInt32.le_iff_toNat_le, UInt8.le_iff_toNat_le, ge_iff_le, UInt8.toNat_toUInt32]
  exact Iff.rfl

theorem ofUInt8_injective : Function.Injective Char.ofUInt8 := by
  intro x y h
  rw [← UInt8.toNat_inj, ← toNat_ofUInt8, h, toNat_ofUInt8]

theorem ofUInt8_toUInt8 {c : Char} (hc : c.toNat < 0x80) : Char.ofUInt8 c.toUInt8 = c := by
  rw [← Char.toNat_inj, toNat_ofUInt8, Char.toUInt8, UInt32.toNat_toUInt8]
  exact Nat.mod_eq_of_lt (Nat.lt_trans hc (by decide))

/-- Characters of one byte each in UTF-8. -/
def Ascii (cs : List Char) : Prop := ∀ c ∈ cs, c.toNat < 0x80

instance (cs : List Char) : Decidable (Ascii cs) := List.decidableBAll _ cs

theorem any_toUInt8_eq {marks : List Char} (h : Ascii marks) (x : UInt8) :
    (marks.any fun c => x == c.toUInt8) = decide (Char.ofUInt8 x ∈ marks) := by
  rw [Bool.eq_iff_iff, decide_eq_true_eq, List.any_eq_true]
  constructor
  · rintro ⟨c, hc, hx⟩
    rwa [eq_of_beq hx, ofUInt8_toUInt8 (h c hc)]
  · intro hx
    refine ⟨_, hx, beq_iff_eq.mpr (ofUInt8_injective ?_)⟩
    rw [ofUInt8_toUInt8 (h _ hx)]

/-- The bytes of an ASCII text stand at the start exactly where its characters do. -/
theorem map_toUInt8_prefix_iff {p : List Char} (hp : Ascii p) {bs : List UInt8} :
    p.map Char.toUInt8 <+: bs ↔ p <+: byteChars bs := by
  have hchars : (p.map Char.toUInt8).map Char.ofUInt8 = p := by
    rw [List.map_map]
    exact (List.map_congr_left fun c hc => ofUInt8_toUInt8 (hp c hc)).trans (List.map_id p)
  rw [← List.prefix_map_iff_of_injective ofUInt8_injective, hchars, byteChars]

/-! ### Standing at a position -/

/-- Behind the position `i`, which is not behind the end, stand the characters `cs`. -/
structure Stands (b : ByteArray) (i : Nat) (cs : List Char) : Prop where
  le : i ≤ b.size
  chars : byteChars (b.data.toList.drop i) = cs

section

variable {b : ByteArray} {i : Nat} {cs : List Char}

theorem stands_zero (b : ByteArray) : Stands b 0 (byteChars b.data.toList) := ⟨Nat.zero_le _, rfl⟩

theorem Stands.length_eq (h : Stands b i cs) : i + cs.length = b.size := by
  have hle := h.le
  rw [← h.chars, byteChars, List.length_map, List.length_drop, Array.length_toList]
  exact Nat.add_sub_cancel' hle

/-- Behind a part of the characters stands what is left of them. -/
theorem Stands.behind {p r : List Char} (h : Stands b i cs) (hcs : p ++ r = cs) :
    Stands b (i + p.length) r := by
  subst hcs
  have hlength := h.length_eq
  rw [List.length_append] at hlength
  refine ⟨by omega, ?_⟩
  have hchars := congrArg (List.drop p.length) h.chars
  rw [List.drop_left, byteChars, ← List.map_drop, List.drop_drop] at hchars
  exact hchars

theorem Stands.behind_cons {c : Char} (h : Stands b i (c :: cs)) : Stands b (i + 1) cs :=
  h.behind (p := [c]) rfl

theorem Stands.getElem?_eq (h : Stands b i cs) : (b[i]?).map Char.ofUInt8 = cs.head? := by
  rw [← h.chars, byteChars, List.head?_map, List.head?_drop]
  by_cases hi : i < b.size
  · rw [getElem?_pos b i hi]
    simp [ByteArray.getElem_eq_getElem_data, hi]
  · rw [getElem?_neg b i hi]
    simp [hi]

theorem Stands.not_lt (h : Stands b i []) : ¬ i < b.size := by
  have hlength := h.length_eq
  rw [List.length_nil] at hlength
  omega

theorem Stands.exists_byte {c : Char} (h : Stands b i (c :: cs)) :
    i < b.size ∧ ∃ x, b[i]? = some x ∧ Char.ofUInt8 x = c := by
  have hlength := h.length_eq
  rw [List.length_cons] at hlength
  have hbyte := h.getElem?_eq
  rw [List.head?_cons, Option.map_eq_some_iff] at hbyte
  exact ⟨by omega, hbyte⟩

/-- Asking for a mark where there is a character asks about that character. -/
theorem Stands.standsAt?_cons {marks : List Char} (hmarks : Ascii marks) {c : Char}
    (h : Stands b i (c :: cs)) : standsAt? marks b i = some (decide (c ∈ marks)) := by
  obtain ⟨hlt, x, hx, rfl⟩ := h.exists_byte
  rw [standsAt?, if_pos hlt, hx, ← any_toUInt8_eq hmarks]
  rfl

theorem Stands.standsAt?_of_mem {marks : List Char} (hmarks : Ascii marks) {c : Char}
    (h : Stands b i (c :: cs)) (hc : c ∈ marks) : standsAt? marks b i = some true := by
  rw [h.standsAt?_cons hmarks, decide_eq_true hc]

theorem Stands.standsAt?_of_notMem {marks : List Char} (hmarks : Ascii marks)
    (h : Stands b i cs) (hc : ∀ c ∈ cs.head?, c ∉ marks) : standsAt? marks b i = some false := by
  cases cs with
  | nil =>
      rw [standsAt?, if_neg h.not_lt]
      rfl
  | cons c cs => rw [h.standsAt?_cons hmarks, decide_eq_false (hc c rfl)]

/-! ### Step by step -/

theorem Stands.behindSign?_eq (h : Stands b i cs) :
    behindSign? b i = some (i + (Sign.scan cs).1.text.length) := by
  have hmarks : Ascii ['+', '-'] := by decide
  unfold behindSign? Sign.scan
  split
  · rw [h.standsAt?_of_mem hmarks (by decide)]
    rfl
  · rw [h.standsAt?_of_mem hmarks (by decide)]
    rfl
  · next hplus hminus =>
    have hc : ∀ c ∈ cs.head?, c ∉ ['+', '-'] := by
      intro c hc
      obtain ⟨r, rfl⟩ := List.head?_eq_some_iff.mp hc
      have hne : c ≠ '+' ∧ c ≠ '-' := ⟨fun h => hplus r (h ▸ rfl), fun h => hminus r (h ▸ rfl)⟩
      simpa using hne
    rw [h.standsAt?_of_notMem hmarks hc]
    rfl

/-- The loop over digits ends behind all of them. -/
theorem Stands.behindDigits?_eq (h : Stands b i cs) :
    behindDigits? b i = some (i + (cs.takeWhile Char.isDigit).length) := by
  induction cs generalizing i with
  | nil =>
      rw [behindDigits?, if_neg h.not_lt]
      rfl
  | cons c cs ih =>
      obtain ⟨hlt, x, hx, rfl⟩ := h.exists_byte
      have hnext := h.behind_cons
      rw [behindDigits?, if_pos hlt, hx, List.takeWhile_cons, isDigit_ofUInt8]
      by_cases hdigit : isDigitByte x = true
      · simp only [Option.bind_eq_bind, Option.bind_some, hdigit, if_true, ih hnext,
          List.length_cons]
        rw [Nat.add_assoc, Nat.add_comm 1]
      · simp [hdigit]

theorem distance?_add (i n : Nat) : distance? i (i + n) = some n := by simp [distance?]

/-- A point is passed with its digits, which are counted, unless there are no digits at all. -/
theorem Stands.behindFraction?_eq (h : Stands b i cs) (whole : List Char) :
    behindFraction? b i whole.length
      = some (i + (fractionText (scanFraction whole cs).1).length,
        whole.length + ((scanFraction whole cs).1.getD []).length) := by
  have hmarks : Ascii ['.'] := by decide
  unfold behindFraction? scanFraction
  split
  · next cs =>
    have hnext := h.behind_cons
    rw [h.standsAt?_of_mem hmarks (by decide)]
    simp only [Option.pure_def, Option.bind_eq_bind, Option.bind_some, hnext.behindDigits?_eq,
      distance?_add, if_true]
    by_cases hnone : whole = [] ∧ cs.takeWhile Char.isDigit = []
    · simp [hnone, fractionText]
    · have hpos : 0 < whole.length + (cs.takeWhile Char.isDigit).length := by
        rw [← List.length_append, List.length_pos_iff, ne_eq, List.append_eq_nil_iff]
        exact hnone
      rw [if_pos hpos, if_neg hnone]
      simp only [fractionText, List.length_cons, Option.getD_some]
      rw [Nat.add_assoc, Nat.add_comm 1]
  · next hpoint =>
    have hc : ∀ c ∈ cs.head?, c ∉ ['.'] := by
      intro c hc
      obtain ⟨r, rfl⟩ := List.head?_eq_some_iff.mp hc
      exact fun hmem => hpoint r (List.mem_singleton.mp hmem ▸ rfl)
    rw [h.standsAt?_of_notMem hmarks hc]
    rfl

/-- A power is passed if digits follow its letter. -/
theorem Stands.behindPower?_eq (h : Stands b i cs) :
    behindPower? b i = some (i + (powerText (Power.scan cs).1).length) := by
  have hmarks : Ascii ['e', 'E'] := by decide
  unfold behindPower?
  cases cs with
  | nil =>
      rw [h.standsAt?_of_notMem hmarks (by simp)]
      rfl
  | cons c cs =>
      by_cases hc : c = 'e' ∨ c = 'E'
      · have hsign := h.behind_cons
        have hdigits := hsign.behind (Sign.scan_append cs)
        rw [h.standsAt?_of_mem hmarks (by simpa using hc)]
        simp only [Option.pure_def, Option.bind_eq_bind, Option.bind_some, hsign.behindSign?_eq,
          hdigits.behindDigits?_eq, Power.scan, hc, if_true]
        by_cases hnone : (Sign.scan cs).2.takeWhile Char.isDigit = []
        · simp [hnone, powerText]
        · have hpos := List.length_pos_iff.mpr hnone
          rw [if_pos (by omega), if_neg hnone]
          simp only [powerText, Power.text, List.length_cons, List.length_append]
          congr 1
          omega
      · rw [h.standsAt?_of_notMem hmarks (by simpa using hc)]
        simp [Power.scan, hc, powerText]

/-- The mantissa has no digits exactly if it has neither whole digits nor a fraction. -/
theorem mantissa_digits_eq_zero_iff (whole cs : List Char) :
    whole.length + ((scanFraction whole cs).1.getD []).length = 0
      ↔ whole = [] ∧ (scanFraction whole cs).1 = none := by
  rw [Nat.add_eq_zero_iff, List.length_eq_zero_iff, List.length_eq_zero_iff]
  refine and_congr_right fun hwhole => ?_
  have hsome := allDigits_of_scanFraction whole cs
  cases hf : (scanFraction whole cs).1 with
  | none => simp
  | some places =>
      have hplaces := (hsome places hf).2.resolve_left (not_not_intro hwhole)
      simpa using hplaces

theorem Stands.behindDecimal?_eq (h : Stands b i cs) : behindDecimal? b i = some
    (let whole := cs.takeWhile Char.isDigit
      let (fraction, afterFraction) := scanFraction whole (cs.dropWhile Char.isDigit)
      if whole = [] ∧ fraction = none then 0
      else i + (whole ++ fractionText fraction
        ++ powerText (Power.scan afterFraction).1).length) := by
  have hwhole := h.behind (List.takeWhile_append_dropWhile (p := Char.isDigit))
  have hfraction := hwhole.behind (scanFraction_append (cs.takeWhile Char.isDigit) _)
  unfold behindDecimal?
  simp only [Option.pure_def, Option.bind_eq_bind, Option.bind_some, h.behindDigits?_eq,
    distance?_add, hwhole.behindFraction?_eq, mantissa_digits_eq_zero_iff,
    hfraction.behindPower?_eq]
  split
  · rfl
  · simp only [List.length_append, Nat.add_assoc]

/-! ### The whole numeral -/

theorem Stands.infinity_iff (h : Stands b i cs) :
    infinityBytes.isPrefixOf (b.data.toList.drop i) = true ↔ infinityWord <+: cs := by
  rw [List.isPrefixOf_iff_prefix, infinityBytes, map_toUInt8_prefix_iff (by decide), h.chars]

/-- **The extent is found for all bytes, and it is that of the numeral taken off the
characters of the same codes.** -/
theorem extent?_eq (b : ByteArray) : extent? b = some
    ((scan? (byteChars b.data.toList)).elim 0 fun found => found.1.text.length) := by
  have hstart := stands_zero b
  generalize byteChars b.data.toList = cs at hstart
  have hsign := hstart.behindSign?_eq
  have hunsigned := hstart.behind (Sign.scan_append cs)
  rw [Nat.zero_add] at hsign hunsigned
  unfold extent? scan?
  generalize Sign.scan cs = s at hsign hunsigned
  obtain ⟨sign, unsigned⟩ := s
  dsimp only at hsign hunsigned ⊢
  simp only [Option.pure_def, Option.bind_eq_bind, Option.bind_some, hsign, bytesFrom?,
    hunsigned.le, if_true, hunsigned.behindDecimal?_eq, hunsigned.infinity_iff]
  cases hword : Text.afterWord? infinityWord unsigned with
  | some rest =>
      rw [Text.afterWord?_eq_some_iff] at hword
      rw [if_pos ⟨rest, hword.symm⟩]
      simp [text, infinityBytes]
  | none =>
      have hno : ¬ infinityWord <+: unsigned := by
        rintro ⟨rest, hrest⟩
        rw [Text.afterWord?_eq_some_iff.mpr hrest.symm] at hword
        cases hword
      rw [if_neg hno]
      dsimp only
      split
      · rfl
      · simp [text]

end

/-! ### The bytes of a text -/

theorem ascii_of_mem_numerals {p : List Char} (hp : p ∈ numerals) : Ascii p := by
  obtain ⟨n, hn, rfl⟩ := mem_numerals_iff.mp hp
  exact fun c hc => (toNat_of_numeralChar (numeralChar_of_mem_text hn hc)).2

theorem utf8Encode_ascii {p : List Char} (hp : Ascii p) :
    p.utf8Encode = (p.map Char.toUInt8).toByteArray := by
  induction p with
  | nil => simp
  | cons c p ih =>
      have hc : c.utf8Size = 1 :=
        Char.utf8Size_eq_one_iff.mpr
          (UInt32.le_iff_toNat_le.mpr (Nat.le_of_lt_succ (hp c List.mem_cons_self)))
      rw [List.utf8Encode_cons, List.utf8Encode_singleton, String.utf8EncodeChar_eq_singleton hc,
        ih fun d hd => hp d (List.mem_cons_of_mem c hd), ← List.toByteArray_append]
      rfl

theorem utf8ByteSize_ascii {p : List Char} (hp : Ascii p) :
    (String.ofList p).utf8ByteSize = p.length := by
  rw [← String.size_toByteArray, String.toByteArray_ofList, utf8Encode_ascii hp]
  simp

/-- **The same ASCII texts stand at the start of a text and of its bytes.** -/
theorem prefix_byteChars_iff {p : List Char} (hp : Ascii p) (s : String) :
    p <+: byteChars s.toUTF8.data.toList ↔ p <+: s.toList := by
  rw [← map_toUInt8_prefix_iff hp, String.toUTF8_eq_toByteArray]
  constructor
  · rintro ⟨bs, hbs⟩
    refine List.isPrefix_of_utf8Encode_append_eq_utf8Encode bs.toByteArray ?_
    rw [utf8Encode_ascii hp, String.utf8Encode_toList, ← List.toByteArray_append, hbs]
    exact ByteArray.ext (by simp)
  · rintro ⟨r, hr⟩
    refine ⟨r.utf8Encode.data.toList, ?_⟩
    rw [← String.utf8Encode_toList, ← hr, List.utf8Encode_append, utf8Encode_ascii hp]
    simp

theorem isLongest_byteChars_iff {s : String} {p : List Char} :
    IsLongest (byteChars s.toUTF8.data.toList) p ↔ IsLongest s.toList p :=
  isLongest_congr fun _ hq => prefix_byteChars_iff (ascii_of_mem_numerals hq) s

/-- **The bytes of a text have the extent of the numeral taken off its characters.** -/
theorem extent?_toUTF8 (s : String) : extent? s.toUTF8 = some
    ((scan? s.toList).elim 0 fun found => found.1.text.length) := by
  rw [extent?_eq]
  cases hscan : scan? s.toList with
  | none =>
      have hnone := scan?_eq_none_iff.mp hscan
      simp only [← isLongest_byteChars_iff] at hnone
      rw [scan?_eq_none_iff.mpr hnone]
  | some found =>
      obtain ⟨n, rest⟩ := found
      have hlongest := isLongest_byteChars_iff.mpr (isLongest_of_scan? hscan)
      obtain ⟨m, after, hbytes, -, htext⟩ := hlongest.exists_scan?
      rw [hbytes, Option.elim_some, Option.elim_some, htext]

theorem isValid_of_prefix {s : String} {p : List Char} (h : p <+: s.toList) :
    String.Pos.Raw.IsValid s ⟨(String.ofList p).utf8ByteSize⟩ := by
  obtain ⟨r, hr⟩ := h
  have hs : s = String.ofList p ++ String.ofList r := by
    rw [← String.ofList_append, hr, String.ofList_toList]
  rw [hs]
  exact String.Pos.Raw.isValid_rawEndPos.append_right _

/-- **For every text the extent is found without leaving its bytes, and it is the size of
the longest numeral at the start of the text, or 0 if there is none there.**  It is the
size of what `scan?` takes, and no greater than that of the text, and it does not fall
inside a character. -/
theorem extent_longest (s : String) : ∃ n, extent? s.toUTF8 = some n ∧
    ((∃ p, IsLongest s.toList p ∧ n = (String.ofList p).utf8ByteSize) ∨
      n = 0 ∧ ¬∃ p, p <+: s.toList ∧ p ∈ numerals) ∧
    n = ((scan? s.toList).elim 0 fun found => (String.ofList found.1.text).utf8ByteSize) ∧
    n ≤ s.utf8ByteSize ∧ String.Pos.Raw.IsValid s ⟨n⟩ := by
  rw [extent?_toUTF8]
  cases hscan : scan? s.toList with
  | none =>
      have hnone := scan?_eq_none_iff.mp hscan
      rw [exists_isLongest_iff] at hnone
      exact ⟨0, rfl, Or.inr ⟨rfl, hnone⟩, rfl, Nat.zero_le _, String.Pos.Raw.isValid_zero⟩
  | some found =>
      obtain ⟨n, rest⟩ := found
      have hlongest := isLongest_of_scan? hscan
      have hsize := utf8ByteSize_ascii (ascii_of_mem_numerals hlongest.mem)
      have hvalid := isValid_of_prefix hlongest.start
      refine ⟨_, ?_, Or.inl ⟨_, hlongest, rfl⟩, rfl, hvalid.le_utf8ByteSize, hvalid⟩
      rw [hsize, Option.elim_some]

/-- Behind the digits of the fraction neither the letter nor the sign counts, and the last
character is two bytes long. -/
example : extent? "-12.5e+\u00e9".toUTF8 = some 5 := by decide +kernel

end Planar.Numeral
