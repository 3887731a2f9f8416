/-
A written numeral is scanned back.

`Numeral.scan?` decides part by part how far a numeral goes, and each decision
looks at what follows: digits go on as long as there are digits, a point and an
`e` belong to the numeral only with digits behind them.  So a numeral that keeps to
the grammar is taken off the front of a text exactly as it was written, provided
that what follows it starts with none of the characters that could prolong it
(`scan?_text_append`).  In the other direction, whatever is taken off the front of a
text keeps to the grammar (`wellFormed_of_scan?`), so there is a number to read in it.

Which numeral was written is then settled, and what is left is its value.  It
depends on the digits and the exponent only through the rational number that
they denote (`value_eq_ofDecimal`).
-/
import Mathlib.Data.List.TakeWhile
import Planar.Proofs.Binary64.Value
import Planar.Numeral

namespace Planar

/-- Digits and nothing else. -/
def AllDigits (cs : List Char) : Prop := ∀ c ∈ cs, c.isDigit = true

/-- A text that does not start with a digit. -/
def NoDigit (cs : List Char) : Prop := ∀ c ∈ cs.head?, c.isDigit = false

/-- A text that does not start with anything that could prolong a numeral. -/
def Stops (cs : List Char) : Prop :=
  ∀ c ∈ cs.head?, c.isDigit = false ∧ c ≠ '.' ∧ c ≠ 'e' ∧ c ≠ 'E'

theorem Stops.noDigit {cs : List Char} (h : Stops cs) : NoDigit cs := fun c hc => (h c hc).1

theorem noDigit_cons {c : Char} (cs : List Char) (h : c.isDigit = false) : NoDigit (c :: cs) := by
  intro d hd
  obtain rfl : c = d := by simpa using hd
  exact h

theorem stops_cons {c : Char} (cs : List Char)
    (h : c.isDigit = false ∧ c ≠ '.' ∧ c ≠ 'e' ∧ c ≠ 'E') : Stops (c :: cs) := by
  intro d hd
  obtain rfl : c = d := by simpa using hd
  exact h

theorem stops_nil : Stops [] := by
  intro c hc
  simp at hc

/-! ### Runs of digits -/

theorem AllDigits.append {cs ds : List Char} (hc : AllDigits cs) (hd : AllDigits ds) :
    AllDigits (cs ++ ds) := by
  intro c hmem
  rcases List.mem_append.mp hmem with h | h
  · exact hc c h
  · exact hd c h

theorem allDigits_toDigits (n : Nat) : AllDigits (Nat.toDigits 10 n) := by
  intro c hc
  exact Nat.isDigit_of_mem_toDigits (by omega) (by omega) hc

theorem allDigits_replicate_zero (n : Nat) : AllDigits (List.replicate n '0') := by
  intro c hc
  rw [List.eq_of_mem_replicate hc]
  rfl

theorem NoDigit.takeWhile_eq {cs : List Char} (h : NoDigit cs) :
    cs.takeWhile Char.isDigit = [] := by
  cases cs with
  | nil => rfl
  | cons c cs => simp [h c rfl]

theorem NoDigit.dropWhile_eq {cs : List Char} (h : NoDigit cs) :
    cs.dropWhile Char.isDigit = cs := by
  cases cs with
  | nil => rfl
  | cons c cs => simp [h c rfl]

theorem takeWhile_digits {ds rest : List Char} (hd : AllDigits ds) (hr : NoDigit rest) :
    (ds ++ rest).takeWhile Char.isDigit = ds := by
  rw [List.takeWhile_append_of_pos hd, hr.takeWhile_eq, List.append_nil]

theorem dropWhile_digits {ds rest : List Char} (hd : AllDigits ds) (hr : NoDigit rest) :
    (ds ++ rest).dropWhile Char.isDigit = rest := by
  rw [List.dropWhile_append_of_pos hd, hr.dropWhile_eq]

/-! ### The parts -/

/-- A power with an `e` and at least one digit. -/
structure Power.WellFormed (p : Power) : Prop where
  letter : p.letter = 'e' ∨ p.letter = 'E'
  digits : AllDigits p.digits
  nonempty : p.digits ≠ []

theorem Sign.scan_text (s : Sign) {c : Char} (cs : List Char) (h : c ≠ '+' ∧ c ≠ '-') :
    Sign.scan (s.text ++ c :: cs) = (s, c :: cs) := by
  cases s with
  | bare =>
      unfold Sign.scan
      split
      · next heq => exact absurd (List.cons.inj heq).1 h.1
      · next heq => exact absurd (List.cons.inj heq).1 h.2
      · rfl
  | plus => rfl
  | minus => rfl

theorem ne_sign_of_isDigit {c : Char} (h : c.isDigit = true) : c ≠ '+' ∧ c ≠ '-' := by
  constructor <;> rintro rfl <;> exact absurd h (by decide)

/-- A written power is taken with all the digits that follow it. -/
theorem Power.scan_text_append {p : Power} (hp : p.WellFormed) (rest : List Char) :
    Power.scan (p.text ++ rest)
      = (some { p with digits := p.digits ++ rest.takeWhile Char.isDigit },
        rest.dropWhile Char.isDigit) := by
  obtain ⟨d, ds, hds⟩ := List.exists_cons_of_ne_nil hp.nonempty
  have hsign : Sign.scan (p.sign.text ++ (p.digits ++ rest)) = (p.sign, p.digits ++ rest) := by
    rw [hds]
    exact Sign.scan_text _ _ (ne_sign_of_isDigit (hp.digits d (by simp [hds])))
  have hne : p.digits ++ rest.takeWhile Char.isDigit ≠ [] := by simp [hp.nonempty]
  simp only [Power.text, List.cons_append, List.append_assoc, Power.scan, hp.letter, if_true,
    hsign, List.takeWhile_append_of_pos hp.digits, List.dropWhile_append_of_pos hp.digits, hne,
    if_false]

theorem Power.scan_text {p : Power} (hp : p.WellFormed) {rest : List Char} (hr : NoDigit rest) :
    Power.scan (p.text ++ rest) = (some p, rest) := by
  rw [Power.scan_text_append hp, hr.takeWhile_eq, hr.dropWhile_eq, List.append_nil]

theorem Power.scan_stops {rest : List Char} (hr : Stops rest) : Power.scan rest = (none, rest) := by
  cases rest with
  | nil => rfl
  | cons c cs =>
      have hc := hr c rfl
      simp [Power.scan, hc.2.2.1, hc.2.2.2]

theorem powerText_scan {power : Option Power} (hp : ∀ p ∈ power, p.WellFormed)
    {rest : List Char} (hr : Stops rest) :
    Power.scan (Numeral.powerText power ++ rest) = (power, rest) := by
  cases power with
  | none => exact Power.scan_stops hr
  | some p => exact Power.scan_text (hp p rfl) hr.noDigit

/-- A text that does not start with a digit or a point, and so does not go on with the
mantissa before it. -/
def NoMantissa (cs : List Char) : Prop := ∀ c ∈ cs.head?, c.isDigit = false ∧ c ≠ '.'

theorem NoMantissa.noDigit {cs : List Char} (h : NoMantissa cs) : NoDigit cs :=
  fun c hc => (h c hc).1

theorem Stops.noMantissa {cs : List Char} (h : Stops cs) : NoMantissa cs :=
  fun c hc => ⟨(h c hc).1, (h c hc).2.1⟩

theorem Power.noMantissa_text {p : Power} (hp : p.WellFormed) (rest : List Char) :
    NoMantissa (p.text ++ rest) := by
  intro c hc
  obtain rfl : p.letter = c := Option.some.inj hc
  rcases hp.letter with h | h <;> rw [h] <;> exact ⟨rfl, by decide⟩

theorem noMantissa_powerText {power : Option Power} (hp : ∀ p ∈ power, p.WellFormed)
    {rest : List Char} (hr : Stops rest) : NoMantissa (Numeral.powerText power ++ rest) := by
  cases power with
  | none => exact hr.noMantissa
  | some p => exact Power.noMantissa_text (hp p rfl) rest

namespace Numeral

/-- A numeral whose parts keep to the grammar. -/
inductive WellFormed : Numeral → Prop
  | infinity (sign : Sign) : WellFormed (.infinity sign)
  | decimal {sign : Sign} {whole : List Char} {fraction : Option (List Char)}
      {power : Option Power} (hwhole : AllDigits whole)
      (hfraction : ∀ places ∈ fraction, AllDigits places)
      (hsome : whole ≠ [] ∨ ∃ places ∈ fraction, places ≠ [])
      (hpower : ∀ p ∈ power, p.WellFormed) : WellFormed (.decimal sign whole fraction power)

theorem scanFraction_text {whole : List Char} {fraction : Option (List Char)}
    (hfraction : ∀ places ∈ fraction, AllDigits places)
    (hsome : whole ≠ [] ∨ ∃ places ∈ fraction, places ≠ []) {rest : List Char}
    (hr : NoMantissa rest) :
    scanFraction whole (fractionText fraction ++ rest) = (fraction, rest) := by
  cases fraction with
  | some places =>
      have hdigits := hfraction places rfl
      have hne : ¬(whole = [] ∧ places = []) := by
        rintro ⟨hw, hp⟩
        simp [hw, hp] at hsome
      simp only [fractionText, List.cons_append, scanFraction, takeWhile_digits hdigits hr.noDigit,
        dropWhile_digits hdigits hr.noDigit, hne, if_false]
  | none =>
      simp only [fractionText, List.nil_append]
      unfold scanFraction
      split
      · exact absurd rfl (hr '.' rfl).2
      · rfl

/-- Behind its sign, a numeral with digits starts with a digit or a point. -/
theorem exists_head {whole : List Char} {fraction : Option (List Char)} (hwhole : AllDigits whole)
    (hsome : whole ≠ [] ∨ ∃ places ∈ fraction, places ≠ []) (cs : List Char) :
    ∃ c ds, whole ++ (fractionText fraction ++ cs) = c :: ds ∧ (c.isDigit = true ∨ c = '.') := by
  cases whole with
  | cons c ds => exact ⟨c, _, rfl, Or.inl (hwhole c (by simp))⟩
  | nil =>
      obtain ⟨places, hmem, -⟩ := hsome.resolve_left (by simp)
      obtain rfl : fraction = some places := hmem
      exact ⟨'.', places ++ cs, rfl, Or.inr rfl⟩

theorem noDigit_fractionText (fraction : Option (List Char)) {rest : List Char}
    (hr : NoDigit rest) : NoDigit (fractionText fraction ++ rest) := by
  cases fraction with
  | none => exact hr
  | some places => exact noDigit_cons _ rfl

/-- Behind a sign, a digit or a point settles that the numeral is one with digits. -/
theorem scan?_sign_append (sign : Sign) {cs : List Char}
    (h : ∃ c ds, cs = c :: ds ∧ (c.isDigit = true ∨ c = '.')) :
    scan? (sign.text ++ cs) =
      let whole := cs.takeWhile Char.isDigit
      let (fraction, afterFraction) := scanFraction whole (cs.dropWhile Char.isDigit)
      if whole = [] ∧ fraction = none then none
      else some (decimal sign whole fraction (Power.scan afterFraction).1,
        (Power.scan afterFraction).2) := by
  obtain ⟨c, ds, rfl, hc⟩ := h
  have hscan : Sign.scan (sign.text ++ c :: ds) = (sign, c :: ds) := by
    refine Sign.scan_text sign ds ?_
    rcases hc with hd | rfl
    · exact ne_sign_of_isDigit hd
    · decide
  have hword : Text.afterWord? infinityWord (c :: ds) = none := by
    by_contra hne
    obtain ⟨after, hafter⟩ := Option.ne_none_iff_exists'.mp hne
    rw [Text.afterWord?_eq_some_iff] at hafter
    obtain rfl := (List.cons.inj hafter).1
    rcases hc with hd | hd <;> exact absurd hd (by decide)
  simp only [scan?, hscan, hword]

/-- The word for infinity is taken whatever follows it. -/
theorem scan?_infinity_append (sign : Sign) (rest : List Char) :
    scan? ((infinity sign).text ++ rest) = some (infinity sign, rest) := by
  have hscan : Sign.scan (sign.text ++ (infinityWord ++ rest)) = (sign, infinityWord ++ rest) :=
    Sign.scan_text sign _ (by decide)
  have hword := Text.afterWord?_eq_some_iff.mpr (rfl : infinityWord ++ rest = infinityWord ++ rest)
  simp only [text, List.append_assoc, scan?, hscan, hword]

/-- **A well-formed numeral is taken off the front of a text as it was written.** -/
theorem scan?_text_append {n : Numeral} (hn : n.WellFormed) {rest : List Char}
    (hr : Stops rest) : scan? (n.text ++ rest) = some (n, rest) := by
  cases hn with
  | infinity sign => exact scan?_infinity_append sign rest
  | @decimal sign whole fraction power hwhole hfraction hsome hpower =>
      have hmantissa := noMantissa_powerText hpower hr
      have hdigits := noDigit_fractionText fraction hmantissa.noDigit
      have hne : ¬(whole = [] ∧ fraction = none) := by
        rintro ⟨hw, hf⟩
        simp [hw, hf] at hsome
      simp only [text, List.append_assoc]
      rw [scan?_sign_append sign (exists_head hwhole hsome _)]
      simp only [takeWhile_digits hwhole hdigits, dropWhile_digits hwhole hdigits,
        scanFraction_text hfraction hsome hmantissa, powerText_scan hpower hr, hne, if_false]

/-! ### What is scanned is well formed -/

theorem allDigits_takeWhile (cs : List Char) : AllDigits (cs.takeWhile Char.isDigit) :=
  fun _ hc => List.mem_takeWhile_imp hc

theorem wellFormed_of_powerScan {cs : List Char} : ∀ p ∈ (Power.scan cs).1, p.WellFormed := by
  intro p hp
  cases cs with
  | nil => cases hp
  | cons c cs =>
      unfold Power.scan at hp
      dsimp only at hp
      split at hp
      · next hletter =>
        split at hp
        · cases hp
        · next hdigits =>
          cases hp
          exact ⟨hletter, allDigits_takeWhile _, hdigits⟩
      · cases hp

theorem allDigits_of_scanFraction (whole cs : List Char) :
    ∀ places ∈ (scanFraction whole cs).1, AllDigits places ∧ (whole ≠ [] ∨ places ≠ []) := by
  intro places hplaces
  unfold scanFraction at hplaces
  split at hplaces
  · dsimp only at hplaces
    split at hplaces
    · cases hplaces
    · next hne =>
      cases hplaces
      exact ⟨allDigits_takeWhile _, by rwa [not_and_or] at hne⟩
  · cases hplaces

/-- **Whatever is taken off the front of a text is well formed.** -/
theorem wellFormed_of_scan? {cs rest : List Char} {n : Numeral} (h : scan? cs = some (n, rest)) :
    n.WellFormed := by
  unfold scan? at h
  generalize Sign.scan cs = s at h
  obtain ⟨sign, unsigned⟩ := s
  dsimp only at h
  split at h
  · cases h
    exact .infinity sign
  · split at h
    · cases h
    · next hne =>
      cases h
      have hfraction := allDigits_of_scanFraction (unsigned.takeWhile Char.isDigit)
        (unsigned.dropWhile Char.isDigit)
      refine .decimal (allDigits_takeWhile _) (fun places hp => (hfraction places hp).1) ?_
        wellFormed_of_powerScan
      rw [not_and_or] at hne
      refine hne.elim Or.inl fun hsome => ?_
      obtain ⟨places, hplaces⟩ := Option.ne_none_iff_exists'.mp hsome
      exact (hfraction places hplaces).2.imp_right fun hp => ⟨places, hplaces, hp⟩

/-! ### Values -/

/-- No numeral stands for NaN. -/
theorem value_ne_nan (n : Numeral) : n.value ≠ .nan := by
  have hrank (s : Bool) (r : Nat) : Binary64.ofRank s r ≠ .nan := by
    unfold Binary64.ofRank
    split <;> simp
  cases n with
  | infinity sign => simp [value]
  | decimal sign whole fraction power =>
      unfold value Binary64.ofDecimal
      dsimp only
      split
      · simp [Binary64.zero]
      · split
        · split
          · simp
          · exact hrank _ _
        · split
          · simp [Binary64.zero]
          · exact hrank _ _

/-- The rational number that a numeral's digits and exponent denote, without its sign. -/
def magnitude : Numeral → ℚ
  | infinity _ => 0
  | decimal _ whole fraction power =>
    Nat.ofDigitChars 10 (whole ++ fraction.getD []) 0
      * 10 ^ ((power.map Power.value).getD 0 - (fraction.getD []).length : Int)

/-- The value of a numeral with digits is the rounding of any decimal equal to it. -/
theorem value_eq_ofDecimal {sign : Sign} {whole : List Char} {fraction : Option (List Char)}
    {power : Option Power} {c : Nat} {e : Int}
    (h : (decimal sign whole fraction power).magnitude = c * 10 ^ e) :
    (decimal sign whole fraction power).value = Binary64.ofDecimal sign.isMinus c e :=
  Binary64.ofDecimal_congr sign.isMinus h

end Numeral

end Planar
