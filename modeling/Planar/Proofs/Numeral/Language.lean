/-
The language of numerals, and the longest one at the start of a text.

The grammar is written down here as a regular language,

    [+-]? ( "Infinity" | ( D+ | D+ "." D* | "." D+ ) ( [eE] [+-]? D+ )? ),

without reference to any scanning.  Its texts are the texts of the well-formed numerals
(`mem_numerals_iff`).

`Numeral.scan?` takes the longest of them.  What it takes is one of them
(`wellFormed_of_scan?`), and it does not stop short: at the start of a text that goes on
with anything at all behind a numeral, it finds a numeral and leaves no more than what
stood behind that one (`exists_scan?_text_append`).  That is seen part by part.  Where
the given numeral has a power, the digits of the power may go on; where it ends in its
fraction, those of the fraction, and a power may follow; where it ends in its whole
digits, all three.  Nothing is ever given back.
-/
import Mathlib.Computability.Language
import Planar.Proofs.Numeral.Scan

namespace Planar.Numeral

open Computability

/-! ### The grammar -/

/-- One digit. -/
def digit : Language Char := {w | ∃ c : Char, c.isDigit = true ∧ w = [c]}

/-- One digit or more. -/
def digits : Language Char := digit * digit∗

/-- A sign, which may be missing. -/
def optionalSign : Language Char := {[], ['+'], ['-']}

/-- Digits with a point before, behind or between them, or without one. -/
def mantissas : Language Char :=
  digits + digits * {['.']} * digit∗ + {['.']} * digits

/-- Powers of ten. -/
def powers : Language Char := ({['e']} + {['E']}) * optionalSign * digits

/-- Numerals with digits. -/
def decimals : Language Char := optionalSign * (mantissas * (1 + powers))

/-- Numerals. -/
def numerals : Language Char := optionalSign * ({infinityWord} + mantissas * (1 + powers))

/-! ### Its texts are those of the well-formed numerals -/

theorem mem_digit_kstar {w : List Char} : w ∈ digit∗ ↔ AllDigits w := by
  rw [Language.mem_kstar]
  constructor
  · rintro ⟨ws, rfl, hws⟩ c hc
    obtain ⟨w, hw, hcw⟩ := List.mem_flatten.mp hc
    obtain ⟨d, hd, rfl⟩ := hws w hw
    rwa [List.mem_singleton.mp hcw]
  · intro h
    refine ⟨w.map fun c => [c], ?_, ?_⟩
    · rw [← List.flatMap_def, List.flatMap_singleton']
    · intro v hv
      obtain ⟨c, hc, rfl⟩ := List.mem_map.mp hv
      exact ⟨c, h c hc, rfl⟩

theorem mem_digits {w : List Char} : w ∈ digits ↔ w ≠ [] ∧ AllDigits w := by
  unfold digits
  rw [Language.mem_mul]
  constructor
  · rintro ⟨_, ⟨c, hc, rfl⟩, ds, hds, rfl⟩
    refine ⟨by simp, fun d hd => ?_⟩
    rcases List.mem_cons.mp hd with rfl | hd
    · exact hc
    · exact mem_digit_kstar.mp hds d hd
  · rintro ⟨hne, hw⟩
    obtain ⟨c, ds, rfl⟩ := List.exists_cons_of_ne_nil hne
    refine ⟨[c], ⟨c, hw c List.mem_cons_self, rfl⟩, ds, ?_, rfl⟩
    exact mem_digit_kstar.mpr fun d hd => hw d (List.mem_cons_of_mem c hd)

theorem mem_optionalSign {w : List Char} : w ∈ optionalSign ↔ ∃ s : Sign, s.text = w := by
  constructor
  · rintro (rfl | rfl | rfl)
    · exact ⟨.bare, rfl⟩
    · exact ⟨.plus, rfl⟩
    · exact ⟨.minus, rfl⟩
  · rintro ⟨s, rfl⟩
    cases s with
    | bare => exact Or.inl rfl
    | plus => exact Or.inr (Or.inl rfl)
    | minus => exact Or.inr (Or.inr rfl)

theorem mem_powers {w : List Char} : w ∈ powers ↔ ∃ p : Power, p.WellFormed ∧ p.text = w := by
  unfold powers
  simp only [Language.mem_mul, Language.mem_add, mem_optionalSign, mem_digits]
  constructor
  · rintro ⟨_, ⟨letter, hletter, _, ⟨sign, rfl⟩, rfl⟩, ds, ⟨hne, hds⟩, rfl⟩
    rcases hletter with rfl | rfl
    · exact ⟨⟨'e', sign, ds⟩, ⟨Or.inl rfl, hds, hne⟩, rfl⟩
    · exact ⟨⟨'E', sign, ds⟩, ⟨Or.inr rfl, hds, hne⟩, rfl⟩
  · rintro ⟨⟨letter, sign, ds⟩, ⟨hletter, hds, hne⟩, rfl⟩
    refine ⟨[letter] ++ sign.text, ⟨[letter], ?_, sign.text, ⟨sign, rfl⟩, rfl⟩, ds, ⟨hne, hds⟩, rfl⟩
    rcases hletter with h | h
    · exact Or.inl (congrArg (fun c => [c]) h)
    · exact Or.inr (congrArg (fun c => [c]) h)

theorem mem_optionalPower {w : List Char} : w ∈ (1 + powers : Language Char) ↔
    ∃ power : Option Power, (∀ p ∈ power, p.WellFormed) ∧ powerText power = w := by
  rw [Language.mem_add, Language.mem_one, mem_powers]
  constructor
  · rintro (rfl | ⟨p, hp, rfl⟩)
    · exact ⟨none, by simp, rfl⟩
    · refine ⟨some p, fun q hq => ?_, rfl⟩
      rwa [← Option.some.inj hq]
  · rintro ⟨power, hpower, rfl⟩
    cases power with
    | none => exact Or.inl rfl
    | some p => exact Or.inr ⟨p, hpower p rfl, rfl⟩

theorem mem_mantissas {w : List Char} : w ∈ mantissas ↔
    ∃ (whole : List Char) (fraction : Option (List Char)), AllDigits whole ∧
      (∀ places ∈ fraction, AllDigits places) ∧
      (whole ≠ [] ∨ ∃ places ∈ fraction, places ≠ []) ∧ whole ++ fractionText fraction = w := by
  have hsome {a : List Char} (ha : AllDigits a) : ∀ places ∈ some a, AllDigits places := by
    intro places hplaces
    rwa [← Option.some.inj hplaces]
  unfold mantissas
  simp only [Language.mem_add, Language.mem_mul, mem_digits, mem_digit_kstar]
  constructor
  · rintro ((⟨hne, hw⟩ | ⟨_, ⟨a, ⟨hne, ha⟩, _, rfl, rfl⟩, b, hb, rfl⟩) |
      ⟨_, rfl, b, ⟨hne, hb⟩, rfl⟩)
    · exact ⟨w, none, hw, by simp, Or.inl hne, List.append_nil w⟩
    · exact ⟨a, some b, ha, hsome hb, Or.inl hne, by simp [fractionText]⟩
    · exact ⟨[], some b, by simp [AllDigits], hsome hb, Or.inr ⟨b, rfl, hne⟩, rfl⟩
  · rintro ⟨whole, fraction, hwhole, hfraction, hne, rfl⟩
    cases fraction with
    | none =>
        refine Or.inl (Or.inl ?_)
        rw [fractionText, List.append_nil]
        exact ⟨by simpa using hne, hwhole⟩
    | some places =>
        have hplaces := hfraction places rfl
        by_cases hw : whole = []
        · subst hw
          exact Or.inr ⟨['.'], rfl, places, ⟨by simpa using hne, hplaces⟩, rfl⟩
        · refine Or.inl (Or.inr ⟨whole ++ ['.'], ⟨whole, ⟨hw, hwhole⟩, ['.'], rfl, rfl⟩, places,
            hplaces, ?_⟩)
          simp [fractionText]

theorem mem_decimals_iff {w : List Char} : w ∈ decimals ↔
    ∃ sign whole fraction power, (decimal sign whole fraction power).WellFormed ∧
      (decimal sign whole fraction power).text = w := by
  unfold decimals
  simp only [Language.mem_mul, mem_optionalSign, mem_mantissas, mem_optionalPower]
  constructor
  · rintro ⟨_, ⟨sign, rfl⟩, _, ⟨_, ⟨whole, fraction, hwhole, hfraction, hne, rfl⟩, _,
      ⟨power, hpower, rfl⟩, rfl⟩, rfl⟩
    exact ⟨sign, whole, fraction, power, .decimal hwhole hfraction hne hpower, by simp [text]⟩
  · rintro ⟨sign, whole, fraction, power, hn, rfl⟩
    cases hn with
    | decimal hwhole hfraction hne hpower =>
        exact ⟨_, ⟨sign, rfl⟩, _, ⟨_, ⟨whole, fraction, hwhole, hfraction, hne, rfl⟩, _,
          ⟨power, hpower, rfl⟩, rfl⟩, by simp [text]⟩

theorem mem_numerals_iff_decimals {w : List Char} :
    w ∈ numerals ↔ (∃ sign, (infinity sign).text = w) ∨ w ∈ decimals := by
  unfold numerals decimals
  rw [mul_add, Language.mem_add]
  refine or_congr_left ?_
  simp only [Language.mem_mul, mem_optionalSign]
  constructor
  · rintro ⟨_, ⟨sign, rfl⟩, _, rfl, rfl⟩
    exact ⟨sign, rfl⟩
  · rintro ⟨sign, rfl⟩
    exact ⟨_, ⟨sign, rfl⟩, infinityWord, rfl, rfl⟩

/-- **The texts of the language are the texts of the well-formed numerals.** -/
theorem mem_numerals_iff {w : List Char} :
    w ∈ numerals ↔ ∃ n : Numeral, n.WellFormed ∧ n.text = w := by
  rw [mem_numerals_iff_decimals, mem_decimals_iff]
  constructor
  · rintro (⟨sign, rfl⟩ | ⟨sign, whole, fraction, power, hn, rfl⟩)
    · exact ⟨_, .infinity sign, rfl⟩
    · exact ⟨_, hn, rfl⟩
  · rintro ⟨n, hn, rfl⟩
    cases n with
    | infinity sign => exact Or.inl ⟨sign, rfl⟩
    | decimal sign whole fraction power => exact Or.inr ⟨sign, whole, fraction, power, hn, rfl⟩

/-! ### Nothing stops short -/

theorem powerScan_suffix (cs : List Char) : (Power.scan cs).2 <:+ cs :=
  ⟨_, Power.scan_append cs⟩

theorem scanFraction_suffix (whole cs : List Char) : (scanFraction whole cs).2 <:+ cs :=
  ⟨_, scanFraction_append whole cs⟩

/-- A numeral with digits is found as soon as its mantissa is. -/
theorem scan?_of_mantissa (sign : Sign) {cs whole after : List Char}
    {fraction : Option (List Char)} (h : ∃ c ds, cs = c :: ds ∧ (c.isDigit = true ∨ c = '.'))
    (hwhole : cs.takeWhile Char.isDigit = whole)
    (hfraction : scanFraction whole (cs.dropWhile Char.isDigit) = (fraction, after))
    (hne : ¬(whole = [] ∧ fraction = none)) :
    scan? (sign.text ++ cs) = some (decimal sign whole fraction (Power.scan after).1,
      (Power.scan after).2) := by
  rw [scan?_sign_append sign h]
  simp only [hwhole, hfraction, hne, if_false]

theorem scanFraction_point_append {whole places : List Char} (hplaces : AllDigits places)
    (hsome : whole ≠ [] ∨ places ≠ []) (r : List Char) :
    scanFraction whole ('.' :: (places ++ r))
      = (some (places ++ r.takeWhile Char.isDigit), r.dropWhile Char.isDigit) := by
  have hne : ¬(whole = [] ∧ places ++ r.takeWhile Char.isDigit = []) := by
    rintro ⟨hw, hp⟩
    simp only [List.append_eq_nil_iff] at hp
    exact hsome.elim (fun h => h hw) (fun h => h hp.1)
  simp only [scanFraction, List.takeWhile_append_of_pos hplaces,
    List.dropWhile_append_of_pos hplaces, hne, if_false]

section

variable (sign : Sign) {whole : List Char} {fraction : Option (List Char)}

/-- Behind a power only its digits can go on. -/
theorem exists_scan?_power (hwhole : AllDigits whole)
    (hfraction : ∀ places ∈ fraction, AllDigits places)
    (hsome : whole ≠ [] ∨ ∃ places ∈ fraction, places ≠ []) {p : Power} (hp : p.WellFormed)
    (r : List Char) : ∃ n, scan? ((decimal sign whole fraction (some p)).text ++ r)
      = some (n, r.dropWhile Char.isDigit) := by
  have hmantissa := Power.noMantissa_text hp r
  have hdigits := noDigit_fractionText fraction hmantissa.noDigit
  have hne : ¬(whole = [] ∧ fraction = none) := by
    rintro ⟨hw, hf⟩
    simp [hw, hf] at hsome
  have hafter : scanFraction whole
      ((whole ++ (fractionText fraction ++ (p.text ++ r))).dropWhile Char.isDigit)
      = (fraction, p.text ++ r) := by
    rw [dropWhile_digits hwhole hdigits, scanFraction_text hfraction hsome hmantissa]
  simp only [text, powerText, List.append_assoc]
  rw [scan?_of_mantissa sign (exists_head hwhole hsome _) (takeWhile_digits hwhole hdigits) hafter
    hne, Power.scan_text_append hp]
  exact ⟨_, rfl⟩

/-- Behind a fraction its digits can go on, and a power can follow. -/
theorem exists_scan?_fraction {places : List Char} (hwhole : AllDigits whole)
    (hplaces : AllDigits places) (hsome : whole ≠ [] ∨ places ≠ []) (r : List Char) :
    ∃ n rest, scan? ((decimal sign whole (some places) none).text ++ r) = some (n, rest) ∧
      rest <:+ r := by
  have hdigits : NoDigit ('.' :: (places ++ r)) := noDigit_cons _ rfl
  have hafter : scanFraction whole ((whole ++ '.' :: (places ++ r)).dropWhile Char.isDigit)
      = (some (places ++ r.takeWhile Char.isDigit), r.dropWhile Char.isDigit) := by
    rw [dropWhile_digits hwhole hdigits, scanFraction_point_append hplaces hsome]
  have hone : whole ≠ [] ∨ ∃ ds ∈ some places, ds ≠ [] := by simpa using hsome
  have hhead := exists_head hwhole hone r
  simp only [text, fractionText, powerText, List.append_nil, List.append_assoc,
    List.cons_append] at hhead ⊢
  exact ⟨_, _, scan?_of_mantissa sign hhead (takeWhile_digits hwhole hdigits) hafter (by simp),
    (powerScan_suffix _).trans (List.dropWhile_suffix _)⟩

/-- Behind whole digits more of them can follow, a fraction and a power. -/
theorem exists_scan?_whole (hwhole : AllDigits whole) (hne : whole ≠ []) (r : List Char) :
    ∃ n rest, scan? ((decimal sign whole none none).text ++ r) = some (n, rest) ∧
      rest <:+ r := by
  have hone : whole ≠ [] ∨ ∃ ds ∈ (none : Option (List Char)), ds ≠ [] := Or.inl hne
  have hhead := exists_head hwhole hone r
  simp only [text, fractionText, powerText, List.append_nil, List.nil_append,
    List.append_assoc] at hhead ⊢
  refine ⟨_, _, scan?_of_mantissa sign hhead (List.takeWhile_append_of_pos hwhole) rfl
    (by simp [hne]), ?_⟩
  rw [List.dropWhile_append_of_pos hwhole]
  exact (powerScan_suffix _).trans ((scanFraction_suffix _ _).trans (List.dropWhile_suffix _))

end

/-- **At the start of a text that goes on behind a numeral, a numeral is found, and no more
is left than what stood behind that one.** -/
theorem exists_scan?_text_append {m : Numeral} (hm : m.WellFormed) (r : List Char) :
    ∃ n rest, scan? (m.text ++ r) = some (n, rest) ∧ rest <:+ r := by
  cases hm with
  | infinity sign => exact ⟨_, r, scan?_infinity_append sign r, List.suffix_rfl⟩
  | @decimal sign whole fraction power hwhole hfraction hsome hpower =>
      match fraction, power with
      | _, some p =>
          obtain ⟨n, hn⟩ := exists_scan?_power sign hwhole hfraction hsome (hpower p rfl) r
          exact ⟨n, _, hn, List.dropWhile_suffix _⟩
      | some places, none =>
          exact exists_scan?_fraction sign hwhole (hfraction places rfl) (by simpa using hsome) r
      | none, none => exact exists_scan?_whole sign hwhole (by simpa using hsome) r

/-! ### The longest numeral at the start of a text -/

/-- `p` is the longest text of the language at the start of a text. -/
structure IsLongest (cs p : List Char) : Prop where
  start : p <+: cs
  mem : p ∈ numerals
  longest : ∀ q, q <+: cs → q ∈ numerals → q.length ≤ p.length

section

variable {cs p rest : List Char} {m n : Numeral}

/-- The longest text depends only on which texts of the language stand at the start. -/
theorem isLongest_congr {cs' : List Char} (h : ∀ q ∈ numerals, (q <+: cs ↔ q <+: cs')) :
    IsLongest cs p ↔ IsLongest cs' p := by
  constructor
  · intro hp
    exact ⟨(h p hp.mem).mp hp.start, hp.mem,
      fun q hstart hmem => hp.longest q ((h q hmem).mpr hstart) hmem⟩
  · intro hp
    exact ⟨(h p hp.mem).mpr hp.start, hp.mem,
      fun q hstart hmem => hp.longest q ((h q hmem).mp hstart) hmem⟩

theorem IsLongest.eq {q : List Char} (hp : IsLongest cs p) (hq : IsLongest cs q) : p = q := by
  have hlength := Nat.le_antisymm (hq.longest p hp.start hp.mem) (hp.longest q hq.start hq.mem)
  exact (List.prefix_of_prefix_length_le hp.start hq.start hlength.le).eq_of_length hlength

/-- A numeral is known by its text. -/
theorem eq_of_text_eq (hm : m.WellFormed) (hn : n.WellFormed) (h : m.text = n.text) : m = n := by
  have hscan := scan?_text_append hm stops_nil
  rw [h, scan?_text_append hn stops_nil] at hscan
  exact (congrArg Prod.fst (Option.some.inj hscan)).symm

/-- Where a text of the language stands at the start, something is found. -/
theorem exists_scan?_of_mem (hstart : p <+: cs) (hmem : p ∈ numerals) :
    ∃ n rest, scan? cs = some (n, rest) ∧ p.length ≤ n.text.length := by
  obtain ⟨r, rfl⟩ := hstart
  obtain ⟨m, hm, rfl⟩ := mem_numerals_iff.mp hmem
  obtain ⟨n, rest, hscan, hrest⟩ := exists_scan?_text_append hm r
  refine ⟨n, rest, hscan, ?_⟩
  have hlength := congrArg List.length (scan?_append hscan)
  have hle := hrest.length_le
  simp only [List.length_append] at hlength
  omega

/-- **What is taken off the front of a text is the longest numeral there.** -/
theorem isLongest_of_scan? (h : scan? cs = some (n, rest)) : IsLongest cs n.text := by
  refine ⟨⟨rest, scan?_append h⟩, mem_numerals_iff.mpr ⟨n, wellFormed_of_scan? h, rfl⟩, ?_⟩
  intro q hstart hmem
  obtain ⟨n', rest', hscan, hle⟩ := exists_scan?_of_mem hstart hmem
  rw [h] at hscan
  cases hscan
  exact hle

theorem IsLongest.exists_scan? (h : IsLongest cs p) :
    ∃ n rest, scan? cs = some (n, rest) ∧ n.WellFormed ∧ n.text = p := by
  obtain ⟨n, rest, hscan, -⟩ := exists_scan?_of_mem h.start h.mem
  exact ⟨n, rest, hscan, wellFormed_of_scan? hscan, (isLongest_of_scan? hscan).eq h⟩

/-- If any numeral stands at the start of a text, one of them is the longest. -/
theorem exists_isLongest_iff : (∃ p, IsLongest cs p) ↔ ∃ p, p <+: cs ∧ p ∈ numerals := by
  constructor
  · rintro ⟨p, hp⟩
    exact ⟨p, hp.start, hp.mem⟩
  · rintro ⟨p, hstart, hmem⟩
    obtain ⟨n, rest, hscan, -⟩ := exists_scan?_of_mem hstart hmem
    exact ⟨n.text, isLongest_of_scan? hscan⟩

/-- **Nothing is found exactly where no numeral stands at the start.** -/
theorem scan?_eq_none_iff : scan? cs = none ↔ ¬∃ p, IsLongest cs p := by
  constructor
  · rintro h ⟨p, hp⟩
    obtain ⟨n, rest, hscan, -⟩ := hp.exists_scan?
    rw [h] at hscan
    cases hscan
  · intro h
    cases hscan : scan? cs with
    | none => rfl
    | some found =>
        obtain ⟨n, rest⟩ := found
        exact absurd ⟨n.text, isLongest_of_scan? hscan⟩ h

end

end Planar.Numeral
