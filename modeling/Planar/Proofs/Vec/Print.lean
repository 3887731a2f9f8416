/-
The printed forms of a vector carry one number for each component.

A component is laid out in three ways: always positionally in the plain text, and with an
exponent beyond certain sizes for inspection and in the JSON text, each with sizes of its
own.  What the text of a component shows does not depend on the layout (`Shows`): the sign
at its start, as few significant digits as any numeral with that value has, and to the
reader a numeral that goes to its end and has that value.

The digits themselves depend on the layout in one point, the way ties go.  Two shortest
decimals can be equally near to a number (`Tied`), and then the JSON text shows the one
whose last digit is even, and the other two forms the greater one.
-/
import Planar.Proofs.Binary64.Hypotenuse
import Planar.Proofs.Decimal.Digits
import Planar.Proofs.Json.Token
import Planar.Proofs.Reading.Longest
import Planar.Proofs.Vec.Text
import Planar.Vec.Json

namespace Planar

/-! ### One text -/

/-- What every printed form of a number shows. -/
structure Shows (x : Binary64) (t : List Char) : Prop where
  /-- A minus stands at the start if the number has one, also if it is a zero. -/
  sign : (t.head? == some '-') = x.isNegative
  /-- No numeral with this value has fewer significant digits. -/
  fewest : ∀ n : Numeral, n.WellFormed → n.value = x →
    (significantDigits t).length ≤ (significantDigits n.text).length
  /-- Nothing is left behind the numeral. -/
  consumed : ∃ n, Numeral.scan? (Text.trimStart t) = some (n, [])
  /-- It is read back, and nothing is noted. -/
  readsBack : readNumber (String.ofList t) = pure x

theorem Layout.exists_scan?_write (l : Layout) (s : Bool) (r : Rank) :
    ∃ n : Numeral, Numeral.scan? (Text.trimStart (l.write (.finite s r))) = some (n, []) ∧
      n.value = .finite s r := by
  obtain ⟨n, hn, htext, hvalue⟩ := exists_numeral_write l s r
  have hscan := Numeral.scan?_text_append hn stops_nil
  rw [List.append_nil] at hscan
  rw [htext, trimStart_text hn]
  exact ⟨n, hscan, hvalue⟩

theorem Layout.head?_write (l : Layout) (s : Bool) (r : Rank) :
    ((l.write (.finite s r)).head? == some '-') = s := by
  have hwf := l.wellFormed_numeral (Sign.ofBool s) (Decimal.shortest l.tie r)
  obtain ⟨whole, fraction, power, a, b, hform, -⟩ :=
    l.exists_padding (Sign.ofBool s) (Decimal.shortest l.tie r)
  rw [l.write_finite]
  rw [hform] at hwf ⊢
  rw [Numeral.head?_text_decimal hwf, Sign.isMinus_ofBool]

/-- **What any layout writes for a finite number shows that number.** -/
theorem shows_write (l : Layout) {x : Binary64} (hx : x.isFinite = true) : Shows x (l.write x) := by
  obtain ⟨s, r, rfl⟩ := Binary64.exists_of_isFinite hx
  obtain ⟨n, hscan, hvalue⟩ := l.exists_scan?_write s r
  refine ⟨l.head?_write s r, ?_, ⟨n, hscan⟩, ?_⟩
  · intro m hm hmvalue
    exact l.length_significantDigits_write_le rfl hm hmvalue
  · rw [← String.toList_ofList (l := l.write (.finite s r))] at hscan
    rw [readNumber_of_scan? hscan, hvalue]

/-! ### The digits of two layouts -/

/-- The number is halfway between two decimals that read back, on the coarsest grid that
has any: `m · 10^e`, whose last digit is even, and the next one. -/
structure Tied (x : Binary64) (m : Nat) (e : Int) : Prop where
  even : m % 2 = 0
  halfway : |x.toRat| = (m + 1 / 2) * 10 ^ e
  below : Binary64.ofDecimal x.isNegative m e = x
  above : Binary64.ofDecimal x.isNegative (m + 1) e = x
  coarsest : ∀ (k : Nat) (f : Int), Binary64.ofDecimal x.isNegative k f = x → f ≤ e

section

variable {s : Bool} {r : Rank} {m : Nat} {e : Int}

/-- What a tie means for the shortest decimals. -/
theorem Tied.shortest_eq (h : Tied (.finite s r) m e) : r.val ≠ 0 ∧
    Decimal.shortest .even r = ⟨m, e⟩ ∧ Decimal.shortest .up r = ⟨m + 1, e⟩ := by
  have hhalf := h.halfway
  rw [Binary64.abs_toRat_finite] at hhalf
  have hr : r.val ≠ 0 := by
    intro hzero
    rw [(Binary64.toRat_finite_eq_zero_iff false r).mpr hzero] at hhalf
    have hpos : (0 : ℚ) < (m + 1 / 2) * 10 ^ e :=
      mul_pos (by positivity) (zpow_pos (by norm_num) e)
    exact hpos.ne hhalf
  have hbelow := Decimal.rankOf_of_ofDecimal h.below
  have habove := Decimal.rankOf_of_ofDecimal h.above
  have hle := Decimal.exponent_le .up hr hbelow
  have hge := h.coarsest _ _ (Decimal.ofDecimal_shortest .up s r)
  exact ⟨hr, Decimal.shortest_of_halfway hr (le_antisymm hge hle) h.even hhalf hbelow habove⟩

/-- Shortest decimals that differ are tied. -/
theorem tied_of_shortest_ne (hr : r.val ≠ 0)
    (hne : Decimal.shortest .even r ≠ Decimal.shortest .up r) : ∃ m e, Tied (.finite s r) m e := by
  have hup := Decimal.ofDecimal_shortest .up s r
  have heven := Decimal.ofDecimal_shortest .even s r
  have hcoarsest (k : Nat) (f : Int) (hback : Binary64.ofDecimal s k f = .finite s r) :
      f ≤ (Decimal.shortest .even r).exponent :=
    Decimal.exponent_le .even hr (Decimal.rankOf_of_ofDecimal hback)
  rcases Decimal.shortest_even_eq_or hr with hsame | ⟨m, e, hm, hhalf, hlower, hupper⟩
  · exact absurd hsame hne
  · rw [hlower] at heven hcoarsest
    rw [hupper] at hup
    refine ⟨m, e, hm, ?_, heven, hup, hcoarsest⟩
    rw [Binary64.abs_toRat_finite]
    exact hhalf

/-- The nearest decimals of sixteen digits end in 2 and in 3. -/
example : ∃ m e, Tied 68722071722.703125 m e := by
  have hform : (68722071722.703125 : Binary64) = .finite false ⟨0x4230002798aab400, by decide⟩ := by
    decide +kernel
  rw [hform]
  exact tied_of_shortest_ne (by decide) (by decide +kernel)

end

/-- Layouts that treat ties alike show the same digits. -/
theorem significantDigits_write_eq {l l' : Layout} (h : l.tie = l'.tie) {x : Binary64}
    (hx : x.isFinite = true) : significantDigits (l.write x) = significantDigits (l'.write x) := by
  obtain ⟨s, r, rfl⟩ := Binary64.exists_of_isFinite hx
  by_cases hr : r.val = 0
  · rw [l.significantDigits_write_zero s hr, l'.significantDigits_write_zero s hr]
  · rw [l.significantDigits_write s hr, l'.significantDigits_write s hr, h]

section

variable {l l' : Layout} (hl : l.tie = .even) (hl' : l'.tie = .up) {x : Binary64}
  (hx : x.isFinite = true)

include hl hl' hx

/-- Without a tie they do so too if they treat ties differently. -/
theorem significantDigits_write_of_not_tied (h : ∀ m e, ¬ Tied x m e) :
    significantDigits (l.write x) = significantDigits (l'.write x) := by
  obtain ⟨s, r, rfl⟩ := Binary64.exists_of_isFinite hx
  by_cases hr : r.val = 0
  · rw [l.significantDigits_write_zero s hr, l'.significantDigits_write_zero s hr]
  · rw [l.significantDigits_write s hr, l'.significantDigits_write s hr, hl, hl']
    by_contra hne
    obtain ⟨m, e, htied⟩ := tied_of_shortest_ne hr fun heq => hne (congrArg Decimal.digits heq)
    exact h m e htied

theorem significantDigits_write_of_tied {m : Nat} {e : Int} (h : Tied x m e) :
    significantDigits (l.write x) = Nat.toDigits 10 m ∧
      significantDigits (l'.write x) = Nat.toDigits 10 (m + 1) := by
  obtain ⟨s, r, rfl⟩ := Binary64.exists_of_isFinite hx
  obtain ⟨hr, hlower, hupper⟩ := h.shortest_eq
  rw [l.significantDigits_write s hr, l'.significantDigits_write s hr, hl, hl', hlower, hupper]
  exact ⟨rfl, rfl⟩

end

/-! ### The exponent -/

/-- The bounds of the positional sizes, as numbers and as the powers of ten that these print. -/
theorem exists_inspection_bounds : ∃ least past : Rank, (0.0001 : Binary64) = .finite false least ∧
    (1e16 : Binary64) = .finite false past ∧ Decimal.shortest .up least = ⟨1, -4⟩ ∧
    Decimal.shortest .up past = ⟨1, 16⟩ := by
  refine ⟨⟨0x3f1a36e2eb1c432d, by decide⟩, ⟨0x4341c37937e08000, by decide⟩, ?_⟩
  decide +kernel

theorem isPositional_inspection_iff (size : Int) :
    inspectionLayout.isPositional size = false ↔ size < -4 ∨ 16 ≤ size := by
  simp only [Layout.isPositional, inspectionLayout, Bool.and_eq_false_iff, decide_eq_false_iff_not]
  omega

/-- **For inspection an exponent is shown below 10^-4 and from 10^16 on.** -/
theorem exponentMark_mem_inspection_iff {x : Binary64} (hx : x.isFinite = true) :
    'e' ∈ inspectionLayout.write x ↔ x.numEq 0.0 = false ∧
      (x.abs.numLt 0.0001 = true ∨ Binary64.numLe 1e16 x.abs = true) := by
  obtain ⟨s, r, rfl⟩ := Binary64.exists_of_isFinite hx
  obtain ⟨least, past, hleast, hpast, hshortest, hshortest'⟩ := exists_inspection_bounds
  have hzero : (Binary64.finite s r).numEq 0.0 = decide (r.val = 0) := by
    rw [Binary64.positiveZero_eq, Binary64.numEq_finite]
    cases s <;> simp [Binary64.signedRank]
  have habs : (Binary64.finite s r).abs = .finite false r := rfl
  have htie : inspectionLayout.tie = .up := rfl
  rw [inspectionLayout.exponentMark_mem_write_iff, isPositional_inspection_iff, htie, hzero, habs,
    hleast, hpast, Binary64.numLt_finite, Binary64.numLe_finite]
  simp only [Binary64.signedRank, Bool.false_eq_true, if_false, decide_eq_true_iff,
    decide_eq_false_iff_not, Int.ofNat_lt, Int.ofNat_le]
  by_cases hr : r.val = 0
  · have hsize : (Decimal.shortest .up r).size = 0 := by
      unfold Decimal.shortest
      rw [if_pos hr]
      decide
    rw [hsize]
    simp [hr]
  · have hlow := Decimal.le_size_shortest_iff .up hshortest hr
    have hhigh := Decimal.le_size_shortest_iff .up hshortest' hr
    omega

/-! ### Three texts of a number, and of a vector -/

/-- What three texts of a number have in common: the plain one, the one for inspection and
the one in JSON. -/
structure Alike (x : Binary64) (plain inspected json : List Char) : Prop where
  showsPlain : Shows x plain
  showsInspected : Shows x inspected
  showsJson : Shows x json
  inspectedDigits : significantDigits inspected = significantDigits plain
  jsonDigits : (∀ m e, ¬ Tied x m e) → significantDigits json = significantDigits plain
  tiedDigits : ∀ m e, Tied x m e → significantDigits json = Nat.toDigits 10 m ∧
    significantDigits plain = Nat.toDigits 10 (m + 1)
  exponent : 'e' ∈ inspected ↔ x.numEq 0.0 = false ∧
    (x.abs.numLt 0.0001 = true ∨ Binary64.numLe 1e16 x.abs = true)

theorem alike_write {x : Binary64} (hx : x.isFinite = true) :
    Alike x (Layout.plain.write x) (inspectionLayout.write x) (Json.realLayout.write x) where
  showsPlain := shows_write _ hx
  showsInspected := shows_write _ hx
  showsJson := shows_write _ hx
  inspectedDigits :=
    significantDigits_write_eq (show inspectionLayout.tie = Layout.plain.tie from rfl) hx
  jsonDigits := significantDigits_write_of_not_tied rfl rfl hx
  tiedDigits _ _ := significantDigits_write_of_tied rfl rfl hx
  exponent := exponentMark_mem_inspection_iff hx

namespace Vec

theorem trimStart_blank (cs : List Char) : Text.trimStart (' ' :: cs) = Text.trimStart cs :=
  List.dropWhile_cons_of_pos (by decide)

/-- Two texts with a comma and a blank between them are read one by one. -/
theorem ofText_inspected {v : Vec} (hv : v.isFinite = true) :
    ofText (String.ofList (inspectionLayout.write v.x ++ ',' :: ' ' :: inspectionLayout.write v.y))
      = pure v := by
  obtain ⟨hx, hy⟩ := Bool.and_eq_true_iff.mp hv
  have hcomma : ',' ∉ ' ' :: inspectionLayout.write v.y := by
    simp [comma_not_mem_write inspectionLayout v.y]
  have hblank : readNumber (String.ofList (' ' :: inspectionLayout.write v.y)) = pure v.y := by
    obtain ⟨s, r, hform⟩ := Binary64.exists_of_isFinite hy
    obtain ⟨n, hscan, hvalue⟩ := inspectionLayout.exists_scan?_write s r
    rw [← trimStart_blank, ← hform,
      ← String.toList_ofList (l := ' ' :: inspectionLayout.write v.y)] at hscan
    rw [readNumber_of_scan? hscan, hvalue, hform]
  rw [ofText_comma (comma_not_mem_write _ v.x) hcomma, hblank,
    (shows_write inspectionLayout hx).readsBack]
  rfl

/-- **The printed forms of a finite vector carry the same numbers.**  Each is put together
from a text for each component, and the three texts of a component are alike.  What is
shown for inspection, without its parentheses, is also read back as the vector. -/
theorem printed_forms_alike {v : Vec} (hv : v.isFinite = true) :
    ∃ px py ix iy jx jy : List Char,
      v.text = String.ofList (px ++ ',' :: py) ∧
      v.inspect = String.ofList ('(' :: (ix ++ ',' :: ' ' :: (iy ++ [')']))) ∧
      v.jsonText = Json.recordText jx jy ∧
      Alike v.x px ix jx ∧ Alike v.y py iy jy ∧
      ofText (String.ofList (ix ++ ',' :: ' ' :: iy)) = pure v := by
  obtain ⟨hx, hy⟩ := Bool.and_eq_true_iff.mp hv
  have hjson {c : Binary64} (hc : c.isFinite = true) :
      Json.componentText c = Json.realLayout.write c := if_pos hc
  have hjsonText : v.jsonText
      = Json.recordText (Json.realLayout.write v.x) (Json.realLayout.write v.y) := by
    rw [← hjson hx, ← hjson hy]
    rfl
  exact ⟨_, _, _, _, _, _, rfl, rfl, hjsonText, alike_write hx, alike_write hy,
    ofText_inspected hv⟩

/-- The greatest power of ten that has an exponent in one form only, and the least in two. -/
theorem printed_forms_alike_exponents :
    (Vec.mk (-0.00001) 1e16).isFinite = true ∧
      (Vec.mk (-0.00001) 1e16).text = "-0.00001,10000000000000000" ∧
      (Vec.mk (-0.00001) 1e16).inspect = "(-1e-5, 1e16)" ∧
      (Vec.mk (-0.00001) 1e16).jsonText = "\x7b\"x\":-0.00001,\"y\":1e+16\x7d".toList ∧
      ∃ px py ix iy jx jy : List Char,
        (Vec.mk (-0.00001) 1e16).text = String.ofList (px ++ ',' :: py) ∧
        (Vec.mk (-0.00001) 1e16).inspect
          = String.ofList ('(' :: (ix ++ ',' :: ' ' :: (iy ++ [')']))) ∧
        (Vec.mk (-0.00001) 1e16).jsonText = Json.recordText jx jy ∧
        Alike (-0.00001) px ix jx ∧ Alike 1e16 py iy jy ∧
        ofText (String.ofList (ix ++ ',' :: ' ' :: iy)) = pure (Vec.mk (-0.00001) 1e16) :=
  ⟨by decide +kernel, by decide +kernel, by decide +kernel, by decide +kernel,
    printed_forms_alike (by decide +kernel)⟩

/-- A tie.  The plain text and the JSON text of one number do not show the same digits. -/
theorem jsonText_digits_differ :
    (Vec.mk 68722071722.703125 0.0).isFinite = true ∧
      (Vec.mk 68722071722.703125 0.0).text = "68722071722.70313,0" ∧
      (Vec.mk 68722071722.703125 0.0).jsonText
        = "\x7b\"x\":68722071722.70312,\"y\":0.0\x7d".toList ∧
      significantDigits (Json.componentText 68722071722.703125)
        ≠ significantDigits (componentText 68722071722.703125) := by
  decide +kernel

end Vec

end Planar
