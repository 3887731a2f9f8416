/-
Numerals, and the longest one at the start of a text.

    numeral  = [+-]? ( "Infinity" | mantissa power? )
    mantissa = D+ | D+ "." D* | "." D+
    power    = [eE] [+-]? D+                  with D an ASCII digit

A scanned numeral is kept as its parts, letter by letter, so that its text can be
written back: what `scan?` takes off the front of a text is exactly the text of
the numeral it returns.  Two of the parts are taken only if they are complete.  A
point without a digit on either side stays where it is, and so does an `e` that
no digits follow.

The value of a numeral is one rounding of `± c · 10^e`, where `c` is all the
mantissa's digits read as one whole number.
-/
import Planar.Binary64.Rounding
import Planar.Text.Word

namespace Planar

/-- A sign as it is written. -/
inductive Sign where
  | bare
  | plus
  | minus
deriving DecidableEq, Repr

namespace Sign

/-- The written sign. -/
def text : Sign → List Char
  | bare => []
  | plus => ['+']
  | minus => ['-']

/-- Whether the sign is a minus. -/
def isMinus (s : Sign) : Bool := decide (s = minus)

/-- Takes a sign off the front of a text. -/
def scan : List Char → Sign × List Char
  | '+' :: cs => (plus, cs)
  | '-' :: cs => (minus, cs)
  | cs => (bare, cs)

end Sign

/-- The power of ten at the end of a numeral. -/
structure Power where
  /-- The letter that opens it, `e` or `E`. -/
  letter : Char
  sign : Sign
  digits : List Char
deriving DecidableEq, Repr

namespace Power

/-- The written power. -/
def text (p : Power) : List Char := p.letter :: (p.sign.text ++ p.digits)

/-- The exponent it stands for. -/
def value (p : Power) : Int :=
  let n : Int := Nat.ofDigitChars 10 p.digits 0
  if p.sign.isMinus then -n else n

/-- Takes a power off the front of a text, if digits follow its letter. -/
def scan : List Char → Option Power × List Char
  | [] => (none, [])
  | c :: cs =>
    if c = 'e' ∨ c = 'E' then
      let (sign, ds) := Sign.scan cs
      let digits := ds.takeWhile Char.isDigit
      if digits = [] then (none, c :: cs)
      else (some ⟨c, sign, digits⟩, ds.dropWhile Char.isDigit)
    else (none, c :: cs)

end Power

/-- A numeral, by its parts. -/
inductive Numeral where
  /-- The word for infinity. -/
  | infinity (sign : Sign)
  /-- Digits, a fraction if there is a point, and a power of ten. -/
  | decimal (sign : Sign) (whole : List Char) (fraction : Option (List Char))
      (power : Option Power)
deriving DecidableEq, Repr

namespace Numeral

/-- The word for infinity. -/
def infinityWord : List Char := ['I', 'n', 'f', 'i', 'n', 'i', 't', 'y']

/-- The written fraction: a point and its digits. -/
def fractionText : Option (List Char) → List Char
  | none => []
  | some digits => '.' :: digits

/-- The written power. -/
def powerText : Option Power → List Char
  | none => []
  | some p => p.text

/-- The written numeral. -/
def text : Numeral → List Char
  | infinity sign => sign.text ++ infinityWord
  | decimal sign whole fraction power =>
    sign.text ++ whole ++ fractionText fraction ++ powerText power

/-- The number nearest to what a numeral stands for. -/
def value : Numeral → Binary64
  | infinity sign => .infinite sign.isMinus
  | decimal sign whole fraction power =>
    let places := fraction.getD []
    let exponent := (power.map Power.value).getD 0
    Binary64.ofDecimal sign.isMinus (Nat.ofDigitChars 10 (whole ++ places) 0)
      (exponent - places.length)

/-- Takes a point and its digits off the front of a text.  A point needs a digit
before or after it. -/
def scanFraction (whole : List Char) : List Char → Option (List Char) × List Char
  | '.' :: cs =>
    let digits := cs.takeWhile Char.isDigit
    if whole = [] ∧ digits = [] then (none, '.' :: cs)
    else (some digits, cs.dropWhile Char.isDigit)
  | cs => (none, cs)

/-- Takes the longest numeral off the front of a text. -/
def scan? (cs : List Char) : Option (Numeral × List Char) :=
  let (sign, unsigned) := Sign.scan cs
  match Text.afterWord? infinityWord unsigned with
  | some rest => some (infinity sign, rest)
  | none =>
    let whole := unsigned.takeWhile Char.isDigit
    let (fraction, afterFraction) := scanFraction whole (unsigned.dropWhile Char.isDigit)
    if whole = [] ∧ fraction = none then none
    else
      let (power, rest) := Power.scan afterFraction
      some (decimal sign whole fraction power, rest)

end Numeral

/-! ### A scanned numeral is cut off the front of the text

Nothing is lost and nothing is added, part by part.  So what follows a numeral is
shorter than the text, which is what a scan over a whole text needs to end.
-/

theorem Sign.scan_append (cs : List Char) : (Sign.scan cs).1.text ++ (Sign.scan cs).2 = cs := by
  unfold Sign.scan
  split <;> rfl

theorem Power.scan_append (cs : List Char) :
    Numeral.powerText (Power.scan cs).1 ++ (Power.scan cs).2 = cs := by
  cases cs with
  | nil => rfl
  | cons c cs =>
    by_cases h : c = 'e' ∨ c = 'E'
    · simp only [Power.scan, h, if_true]
      split
      · rfl
      · have hsign := Sign.scan_append cs
        simp only [Numeral.powerText, Power.text, List.cons_append, List.append_assoc,
          List.takeWhile_append_dropWhile]
        rw [hsign]
    · simp [Power.scan, h, Numeral.powerText]

theorem Numeral.scanFraction_append (whole cs : List Char) :
    Numeral.fractionText (scanFraction whole cs).1 ++ (scanFraction whole cs).2 = cs := by
  unfold scanFraction
  split
  · dsimp only
    split <;> simp [Numeral.fractionText]
  · rfl

/-- A numeral's text and what follows it are the whole text. -/
theorem Numeral.scan?_append {cs rest : List Char} {n : Numeral}
    (h : scan? cs = some (n, rest)) : n.text ++ rest = cs := by
  have hsign := Sign.scan_append cs
  unfold scan? at h
  generalize Sign.scan cs = s at h hsign
  obtain ⟨sign, unsigned⟩ := s
  dsimp only at h hsign
  split at h
  · next after hword =>
    obtain ⟨rfl, rfl⟩ := Prod.mk.inj (Option.some.inj h)
    rw [Text.afterWord?_eq_some_iff] at hword
    simp only [Numeral.text, List.append_assoc]
    rw [← hword, hsign]
  · split at h
    · exact absurd h (by simp)
    · obtain ⟨rfl, rfl⟩ := Prod.mk.inj (Option.some.inj h)
      simp only [Numeral.text, List.append_assoc]
      rw [Power.scan_append, scanFraction_append, List.takeWhile_append_dropWhile, hsign]

/-- A scanned numeral is not empty. -/
theorem Numeral.scan?_text_ne_nil {cs rest : List Char} {n : Numeral}
    (h : scan? cs = some (n, rest)) : n.text ≠ [] := by
  unfold scan? at h
  generalize Sign.scan cs = s at h
  obtain ⟨sign, unsigned⟩ := s
  dsimp only at h
  split at h
  · obtain ⟨rfl, rfl⟩ := Prod.mk.inj (Option.some.inj h)
    simp [Numeral.text, infinityWord]
  · split at h
    · exact absurd h (by simp)
    · next hne =>
      obtain ⟨rfl, rfl⟩ := Prod.mk.inj (Option.some.inj h)
      intro hnil
      simp only [Numeral.text, List.append_eq_nil_iff] at hnil
      obtain ⟨⟨⟨-, hwhole⟩, hfraction⟩, -⟩ := hnil
      refine hne ⟨hwhole, ?_⟩
      revert hfraction
      generalize (scanFraction _ _).1 = f
      cases f <;> simp [fractionText]

/-- What follows a numeral is shorter than the text. -/
theorem Numeral.length_lt_of_scan? {cs rest : List Char} {n : Numeral}
    (h : scan? cs = some (n, rest)) : rest.length < cs.length := by
  have htext := List.length_pos_iff.mpr (scan?_text_ne_nil h)
  have hlen := congrArg List.length (scan?_append h)
  rw [List.length_append] at hlen
  omega

end Planar
