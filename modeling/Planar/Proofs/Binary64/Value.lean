/-
The rational number that a binary64 number stands for, and rounding to it.

A finite number is its units over 2^1074.  What an operation computes as a ratio
of units is rounded to the nearest finite number, ties to the even rank
(`isNearest_ofUnits`), as long as the ratio lies below 2^1024 - 2^970: that is
where infinity begins, the place halfway between the greatest finite number and
the one that would follow it (`isFinite_ofUnits_iff`).

A decimal literal has two shortcuts for exponents that lead far out of the range.
Neither changes anything (`ofDecimal_eq_ofUnits`), so a literal is rounded like
any other ratio, and two literals of one value give one number.
-/
import Mathlib.Algebra.Order.Field.Rat
import Mathlib.Data.Rat.Cast.Order
import Mathlib.Tactic.FieldSimp
import Mathlib.Tactic.Linarith
import Mathlib.Tactic.NormNum
import Mathlib.Tactic.Positivity
import Planar.Proofs.Binary64.Nearest

namespace Planar

open Rank (units boundary)

/-! ### The nearest magnitude -/

theorem boundary_le_of_lt_nearestRank {n d s : Nat} (hd : 0 < d) (h : s < nearestRank n d) :
    boundary s * d ≤ 2 * n ∧ (2 * n = boundary s * d → s % 2 = 1) := by
  have hpast := (nearestRank_le_iff (n := n) hd s).not.mp (by omega)
  unfold Within at hpast
  omega

theorem le_boundary_nearestRank {n d : Nat} (hd : 0 < d) :
    2 * n ≤ boundary (nearestRank n d) * d ∧
      (2 * n = boundary (nearestRank n d) * d → nearestRank n d % 2 = 0) := by
  have hw := within_nearestRank (n := n) hd
  unfold Within at hw
  omega

/-- No magnitude of the format is nearer than that of the nearest rank, and one
that is as near makes the nearest rank even. -/
theorem nearest_units {n d : Nat} (hd : 0 < d) (b : Nat) :
    |(units (nearestRank n d) : ℚ) - n / d| ≤ |(units b : ℚ) - n / d| ∧
      (b ≠ nearestRank n d → |(units b : ℚ) - n / d| = |(units (nearestRank n d) : ℚ) - n / d| →
        nearestRank n d % 2 = 0) := by
  have hdq : (0 : ℚ) < d := by exact_mod_cast hd
  have habove := le_boundary_nearestRank (n := n) hd
  have hbelow := fun s => boundary_le_of_lt_nearestRank (n := n) (s := s) hd
  generalize nearestRank n d = r at *
  rcases Nat.lt_trichotomy b r with hlt | rfl | hgt
  · obtain ⟨s, rfl⟩ : ∃ s, r = s + 1 := ⟨r - 1, by omega⟩
    obtain ⟨hge, hodd⟩ := hbelow s (Nat.lt_succ_self s)
    have hmid : (units s : ℚ) + units (s + 1) ≤ 2 * (n / d) := by
      rw [mul_div_assoc', le_div_iff₀ hdq]
      exact_mod_cast hge
    have hbs : (units b : ℚ) ≤ units s := by
      exact_mod_cast Rank.units_strictMono.monotone (by omega : b ≤ s)
    have hstep : (units s : ℚ) < units (s + 1) := by
      exact_mod_cast Rank.units_strictMono (Nat.lt_succ_self s)
    have hw : |(units b : ℚ) - n / d| = n / d - units b := by
      rw [abs_sub_comm]
      exact abs_of_nonneg (by linarith)
    refine ⟨?_, ?_⟩
    · rw [hw, abs_le]
      constructor <;> linarith
    · intro _ htie
      rw [hw] at htie
      -- Only the next magnitude below can be as near, and then the ratio is on the boundary.
      have hon : (2 * n : ℚ) = (units s + units (s + 1)) * d := by
        rw [← div_eq_iff hdq.ne', mul_div_assoc]
        rcases abs_cases ((units (s + 1) : ℚ) - n / d) with ⟨he, -⟩ | ⟨he, -⟩ <;> linarith
      have := hodd (by exact_mod_cast hon)
      omega
  · exact ⟨le_refl _, fun hne => absurd rfl hne⟩
  · obtain ⟨hle, heven⟩ := habove
    have hmid : 2 * ((n : ℚ) / d) ≤ units r + units (r + 1) := by
      rw [mul_div_assoc', div_le_iff₀ hdq]
      exact_mod_cast hle
    have hrb : (units (r + 1) : ℚ) ≤ units b := by
      exact_mod_cast Rank.units_strictMono.monotone hgt
    have hstep : (units r : ℚ) < units (r + 1) := by
      exact_mod_cast Rank.units_strictMono (Nat.lt_succ_self r)
    have hw : |(units b : ℚ) - n / d| = units b - n / d := abs_of_nonneg (by linarith)
    refine ⟨?_, ?_⟩
    · rw [hw, abs_le]
      constructor <;> linarith
    · intro _ htie
      rw [hw] at htie
      have hon : (2 * n : ℚ) = (units r + units (r + 1)) * d := by
        rw [← div_eq_iff hdq.ne', mul_div_assoc]
        rcases abs_cases ((units r : ℚ) - n / d) with ⟨he, -⟩ | ⟨he, -⟩ <;> linarith
      exact heven (by exact_mod_cast hon)

namespace Binary64

/-! ### Values -/

theorem unitsInOne_cast_pos : (0 : ℚ) < unitsInOne := Nat.cast_pos.mpr unitsInOne_pos

theorem exists_of_isFinite {x : Binary64} (h : x.isFinite = true) : ∃ s r, x = finite s r := by
  cases x with
  | finite s r => exact ⟨s, r, rfl⟩
  | nan => simp [isFinite] at h
  | infinite s => simp [isFinite] at h

/-- The rational number that a finite number stands for. -/
def toRat : Binary64 → ℚ
  | finite s r => signedUnits s r / unitsInOne
  | _ => 0

/-- The factor of a sign. -/
def signFactor (negative : Bool) : ℚ := if negative then -1 else 1

theorem signFactor_false : signFactor false = 1 := if_neg Bool.false_ne_true

theorem signFactor_true : signFactor true = -1 := if_pos rfl

theorem toRat_finite (s : Bool) (r : Rank) :
    (finite s r).toRat = signFactor s * (units r / unitsInOne) := by
  cases s
  · simp [toRat, signedUnits, signFactor]
  · simp [toRat, signedUnits, signFactor, neg_div]

theorem abs_signFactor (s : Bool) : |signFactor s| = 1 := by
  cases s <;> simp [signFactor]

/-- A finite number at least as near to `q` as every other, of even rank if
another one is as near. -/
structure IsNearest (q : ℚ) (x : Binary64) : Prop where
  isFinite : x.isFinite = true
  nearest : ∀ y : Binary64, y.isFinite = true → |x.toRat - q| ≤ |y.toRat - q|
  even_of_tie : ∀ y : Binary64, y.isFinite = true → y.toRat ≠ x.toRat →
    |y.toRat - q| = |x.toRat - q| → ∃ s r, x = finite s r ∧ r.val % 2 = 0

/-! ### Ratios of units -/

theorem ofRank_val (s : Bool) (r : Rank) : ofRank s r.val = finite s r := by
  unfold ofRank
  rw [dif_pos r.isLt]

theorem isNegative_ofUnits (s : Bool) (n d : Nat) : (ofUnits s n d).isNegative = s := by
  unfold ofUnits ofRank
  split <;> rfl

theorem ofUnits_congr (s : Bool) {n d n' d' : Nat} (hd : 0 < d) (hd' : 0 < d')
    (h : n * d' = n' * d) : ofUnits s n d = ofUnits s n' d' := by
  unfold ofUnits
  rw [nearestRank_congr hd hd' h]

/-- A magnitude of the format is its own rounding. -/
theorem ofUnits_units (s : Bool) (r : Rank) {d : Nat} (hd : 0 < d) :
    ofUnits s (units r * d) d = finite s r := by
  unfold ofUnits
  rw [nearestRank_units r.val hd, ofRank_val]

/-- The least ratio of units that is rounded to infinity, 2^1024 - 2^970. -/
def overflowUnits : Nat := (2 ^ 54 - 1) * 2 ^ 2044

theorem boundary_block_end {r : Nat} (k : Nat) (hr : r = (k + 1) * 2 ^ 52 + (2 ^ 53 - 1)) :
    boundary r = 2 * ((2 ^ 54 - 1) * 2 ^ k) := by
  rw [hr, Rank.boundary_block (Or.inr (by omega)) (by omega), Nat.pow_succ 2 k]
  omega

/-- It is the boundary above the greatest finite rank. -/
theorem boundary_greatest : boundary 0x7fefffffffffffff = 2 * overflowUnits := by
  unfold overflowUnits
  generalize hk : 2044 = k
  exact boundary_block_end k (by omega)

theorem isFinite_ofUnits (s : Bool) (n d : Nat) :
    (ofUnits s n d).isFinite = true ↔ nearestRank n d ≤ 0x7fefffffffffffff := by
  unfold ofUnits ofRank
  by_cases h : nearestRank n d < 0x7ff0000000000000
  · simp only [h, dif_pos, isFinite, true_iff]
    omega
  · simp only [h, dif_neg, not_false_iff, isFinite, Bool.false_eq_true, false_iff]
    omega

/-- **Infinity begins halfway past the greatest finite number.** -/
theorem isFinite_ofUnits_iff (s : Bool) {n d : Nat} (hd : 0 < d) :
    (ofUnits s n d).isFinite = true ↔ n < overflowUnits * d := by
  rw [isFinite_ofUnits, nearestRank_le_iff hd, Within, boundary_greatest, Nat.mul_assoc]
  constructor
  · rintro (hlt | ⟨-, hodd⟩)
    · omega
    · exact absurd hodd (by decide)
  · intro hlt
    exact Or.inl (by omega)

theorem ofUnits_eq_finite (s : Bool) {n d : Nat} (hd : 0 < d) (h : n < overflowUnits * d) :
    ∃ r : Rank, r.val = nearestRank n d ∧ ofUnits s n d = finite s r := by
  have hle := (isFinite_ofUnits s n d).mp ((isFinite_ofUnits_iff s hd).mpr h)
  have hlt : nearestRank n d < 0x7ff0000000000000 := by omega
  refine ⟨⟨nearestRank n d, hlt⟩, rfl, ?_⟩
  unfold ofUnits ofRank
  rw [dif_pos hlt]

/-- Distances are measured in units. -/
theorem abs_toRat_sub (s t : Bool) (r : Rank) (m : ℚ) :
    |(finite t r).toRat - signFactor s * (m / unitsInOne)|
      = |signFactor t * units r - signFactor s * m| / unitsInOne := by
  rw [toRat_finite, ← mul_div_assoc, ← mul_div_assoc, ← sub_div, abs_div,
    abs_of_pos unitsInOne_cast_pos]

/-- Another sign never brings two magnitudes closer. -/
theorem abs_sub_le_of_signs (s t : Bool) {a b : ℚ} (ha : 0 ≤ a) (hb : 0 ≤ b) :
    |a - b| ≤ |signFactor t * a - signFactor s * b| := by
  have h := abs_abs_sub_abs_le (signFactor t * a) (signFactor s * b)
  rwa [abs_mul, abs_mul, abs_signFactor, abs_signFactor, one_mul, one_mul, abs_of_nonneg ha,
    abs_of_nonneg hb] at h

theorem abs_sub_of_sign (s : Bool) (a b : ℚ) :
    |signFactor s * a - signFactor s * b| = |a - b| := by
  rw [← mul_sub, abs_mul, abs_signFactor, one_mul]

/-- It does so only where one of the magnitudes is zero. -/
theorem mul_eq_zero_of_signs {s t : Bool} (hst : t ≠ s) {a b : ℚ}
    (h : |signFactor t * a - signFactor s * b| = |a - b|) : a * b = 0 := by
  have hsq := sq_eq_sq_iff_abs_eq_abs _ _ |>.mpr h
  cases s <;> cases t <;> simp only [signFactor, ne_eq, not_true] at hst hsq
  · norm_num at hsq
    linarith
  · norm_num at hsq
    linarith

/-- **A ratio of units below the overflow is rounded to a nearest number.** -/
theorem isNearest_ofUnits (s : Bool) {n d : Nat} (hd : 0 < d) (h : n < overflowUnits * d) :
    IsNearest (signFactor s * (n / d / unitsInOne)) (ofUnits s n d) := by
  have hU := unitsInOne_cast_pos
  have hm : (0 : ℚ) ≤ n / d := div_nonneg (Nat.cast_nonneg n) (Nat.cast_nonneg d)
  obtain ⟨r, hr, hx⟩ := ofUnits_eq_finite s hd h
  have hnear := nearest_units (n := n) hd
  have hzero : (n : ℚ) / d = 0 → r.val = 0 := by
    intro hz
    have hdq : (d : ℚ) ≠ 0 := by exact_mod_cast hd.ne'
    have hn : n = 0 := by exact_mod_cast (div_eq_zero_iff.mp hz).resolve_right hdq
    rw [hr, hn, nearestRank_zero hd]
  rw [← hr] at hnear
  rw [hx]
  generalize (n : ℚ) / d = m at *
  refine ⟨rfl, ?_, ?_⟩
  · intro y hy
    obtain ⟨t, b, rfl⟩ := exists_of_isFinite hy
    rw [abs_toRat_sub, abs_toRat_sub, abs_sub_of_sign]
    refine div_le_div_of_nonneg_right ?_ hU.le
    exact (hnear b).1.trans (abs_sub_le_of_signs s t (Nat.cast_nonneg _) hm)
  · intro y hy hne htie
    obtain ⟨t, b, rfl⟩ := exists_of_isFinite hy
    refine ⟨s, r, rfl, ?_⟩
    rw [abs_toRat_sub, abs_toRat_sub, abs_sub_of_sign, div_left_inj' hU.ne'] at htie
    by_cases hbr : b = r
    · -- The same magnitude with the other sign is as near only at zero.
      subst hbr
      have hst : t ≠ s := fun hts => hne (by rw [hts])
      rcases mul_eq_zero.mp (mul_eq_zero_of_signs hst htie) with hu | hz
      · have : units b.val = units 0 := by
          rw [Rank.units_zero]
          exact_mod_cast hu
        rw [Rank.units_strictMono.injective this]
      · rw [hzero hz]
    · have hle := abs_sub_le_of_signs s t (Nat.cast_nonneg (units b)) hm
      refine (hnear b).2 (fun hc => hbr (Fin.ext hc)) (le_antisymm ?_ (hnear b).1)
      rw [← htie]
      exact hle

/-! ### Decimal literals

Above 309 a positive exponent makes every coefficient overflow, because
10^310 > 2^1024.  A negative one that outgrows the coefficient leaves less than
half a unit, because 5^331 > 2^745.
-/

theorem overflowUnits_le : overflowUnits ≤ 2 ^ 1024 * unitsInOne := by
  have hpow (a b c d : Nat) (h : a + b = c + d) : (2 ^ a - 1) * 2 ^ b ≤ 2 ^ c * 2 ^ d := by
    rw [← pow_add, ← h, pow_add]
    exact Nat.mul_le_mul_right _ (Nat.sub_le _ _)
  rw [unitsInOne_eq]
  exact hpow 54 2044 1024 1074 rfl

theorem two_pow_le_ten_pow {n : Nat} (h : 309 < n) : 2 ^ 1024 ≤ 10 ^ n := by
  have hbase : 2 ^ 205 ≤ 10 ^ 62 := by norm_num
  calc 2 ^ 1024 ≤ 2 ^ (205 * 5) := pow_le_pow_right₀ (by omega) (by omega)
    _ = (2 ^ 205) ^ 5 := pow_mul _ _ _
    _ ≤ (10 ^ 62) ^ 5 := pow_le_pow_left₀ (Nat.zero_le _) hbase 5
    _ = 10 ^ (62 * 5) := (pow_mul _ _ _).symm
    _ ≤ 10 ^ n := pow_le_pow_right₀ (by omega) (by omega)

theorem two_pow_lt_five_pow {n : Nat} (h : 330 < n) : 2 ^ 745 < 5 ^ n := by
  have hbase : 2 ^ 16 < 5 ^ 7 := by norm_num
  calc 2 ^ 745 ≤ 2 ^ (16 * 47) := pow_le_pow_right₀ (by omega) (by omega)
    _ = (2 ^ 16) ^ 47 := pow_mul _ _ _
    _ < (5 ^ 7) ^ 47 := pow_lt_pow_left₀ hbase (Nat.zero_le _) (by omega)
    _ = 5 ^ (7 * 47) := (pow_mul _ _ _).symm
    _ ≤ 5 ^ n := pow_le_pow_right₀ (by omega) (by omega)

theorem overflow_of_exponent {c n : Nat} (hc : c ≠ 0) (h : 309 < n) :
    overflowUnits ≤ c * 10 ^ n * unitsInOne := by
  calc overflowUnits ≤ 2 ^ 1024 * unitsInOne := overflowUnits_le
    _ ≤ 10 ^ n * unitsInOne := Nat.mul_le_mul_right _ (two_pow_le_ten_pow h)
    _ ≤ c * 10 ^ n * unitsInOne :=
        Nat.mul_le_mul_right _ (Nat.le_mul_of_pos_left _ (Nat.pos_of_ne_zero hc))

theorem small_of_exponent {c n : Nat} (h : c.log2 + 330 < n) :
    2 * (c * unitsInOne) < 10 ^ n := by
  have hfive := two_pow_lt_five_pow (n := n) (by omega)
  have hcn : c * 2 ^ 330 ≤ 2 ^ n := by
    calc c * 2 ^ 330 ≤ 2 ^ (c.log2 + 1) * 2 ^ 330 := Nat.mul_le_mul_right _ Nat.lt_log2_self.le
      _ = 2 ^ (c.log2 + 1 + 330) := (pow_add _ _ _).symm
      _ ≤ 2 ^ n := pow_le_pow_right₀ (by omega) (by omega)
  have hsplit : 2 * unitsInOne = 2 ^ 330 * 2 ^ 745 := by
    rw [unitsInOne_eq, ← pow_succ', ← pow_add]
  calc 2 * (c * unitsInOne) = c * 2 ^ 330 * 2 ^ 745 := by
        rw [mul_assoc, ← hsplit]
        ring
    _ ≤ 2 ^ n * 2 ^ 745 := Nat.mul_le_mul_right _ hcn
    _ < 2 ^ n * 5 ^ n := Nat.mul_lt_mul_of_pos_left hfive (Nat.two_pow_pos n)
    _ = 10 ^ n := (mul_pow 2 5 n).symm

theorem ofUnits_of_overflow (s : Bool) {n d : Nat} (hd : 0 < d) (h : overflowUnits * d ≤ n) :
    ofUnits s n d = infinite s := by
  have hnot := (isFinite_ofUnits_iff s (n := n) hd).not.mpr (by omega)
  unfold ofUnits ofRank at *
  split
  · next hlt => simp [hlt, isFinite] at hnot
  · rfl

theorem ofUnits_of_small (s : Bool) {n d : Nat} (h : 2 * n < d) : ofUnits s n d = zero s := by
  have hzero : nearestRank n d ≤ 0 := by
    rw [nearestRank_le_iff (by omega), Within, Rank.boundary_zero]
    omega
  unfold ofUnits
  rw [Nat.le_zero.mp hzero]
  rfl

/-- **A decimal literal is rounded as the ratio of units that it is.** -/
theorem ofDecimal_eq_ofUnits (s : Bool) {c : Nat} {e : Int} {n d : Nat} (hd : 0 < d)
    (h : (c : ℚ) * 10 ^ e * unitsInOne = n / d) : ofDecimal s c e = ofUnits s n d := by
  have hdq : (d : ℚ) ≠ 0 := by exact_mod_cast hd.ne'
  rw [eq_div_iff hdq] at h
  unfold ofDecimal
  split
  · next hc =>
    rw [hc, Nat.cast_zero, zero_mul, zero_mul, zero_mul] at h
    have hn : n = 0 := by exact_mod_cast h.symm
    rw [hn, ofUnits_of_small s (by omega)]
  · next hc =>
    cases e with
    | ofNat k =>
        rw [Int.ofNat_eq_natCast, zpow_natCast] at h
        have hratio : c * 10 ^ k * unitsInOne * d = n * 1 := by
          rw [Nat.mul_one]
          exact_mod_cast h
        have hunits := ofUnits_congr s Nat.one_pos hd hratio
        rw [← hunits]
        dsimp only
        split
        · next hk =>
          refine (ofUnits_of_overflow s Nat.one_pos ?_).symm
          rw [Nat.mul_one]
          exact overflow_of_exponent hc hk
        · rfl
    | negSucc k =>
        have hten : (10 : ℚ) ^ (k + 1) ≠ 0 := pow_ne_zero _ (by norm_num)
        rw [zpow_negSucc] at h
        have hratio : c * unitsInOne * d = n * 10 ^ (k + 1) := by
          have : (c : ℚ) * unitsInOne * d = n * 10 ^ (k + 1) := by
            rw [← h]
            field_simp
          exact_mod_cast this
        have hunits := ofUnits_congr s (Nat.pow_pos (by omega)) hd hratio
        rw [← hunits]
        dsimp only
        split
        · next hk =>
          refine (ofUnits_of_small s ?_).symm
          have := small_of_exponent hk
          calc 2 * (c * unitsInOne) < 10 ^ k := this
            _ ≤ 10 ^ (k + 1) := pow_le_pow_right₀ (by omega) (by omega)
        · rfl

theorem exists_ratio {q : ℚ} (hq : 0 ≤ q) : ∃ n d : Nat, 0 < d ∧ q = n / d := by
  refine ⟨q.num.toNat, q.den, q.den_pos, ?_⟩
  have hnum : ((q.num.toNat : ℤ) : ℚ) = q.num := by
    exact_mod_cast Int.toNat_of_nonneg (Rat.num_nonneg.mpr hq)
  rw [← Int.cast_natCast, hnum, Rat.num_div_den]

theorem exists_ratio_decimal (c : Nat) (e : Int) :
    ∃ n d : Nat, 0 < d ∧ (c : ℚ) * 10 ^ e * unitsInOne = n / d :=
  exists_ratio (mul_nonneg (mul_nonneg (Nat.cast_nonneg _) (zpow_nonneg (by norm_num) e))
    (Nat.cast_nonneg _))

/-- Literals of one value give one number. -/
theorem ofDecimal_congr (s : Bool) {c c' : Nat} {e e' : Int}
    (h : (c : ℚ) * 10 ^ e = c' * 10 ^ e') : ofDecimal s c e = ofDecimal s c' e' := by
  obtain ⟨n, d, hd, hratio⟩ := exists_ratio_decimal c e
  rw [ofDecimal_eq_ofUnits s hd hratio]
  rw [h] at hratio
  rw [ofDecimal_eq_ofUnits s hd hratio]

/-- The least magnitude that is rounded to infinity. -/
def overflow : ℚ := 2 ^ 1024 - 2 ^ 970

/-- The powers of two that are numbers of the format are below it. -/
theorem pow_le_overflow : (2 : ℚ) ^ 1023 ≤ overflow := by
  have hpow (k : Nat) : (2 : ℚ) ^ (k + 53) ≤ 2 ^ (k + 54) - 2 ^ k := by
    have hpos : (0 : ℚ) < 2 ^ k := pow_pos (by norm_num) k
    rw [pow_add, pow_add]
    linarith
  exact hpow 970

theorem two_pow_lt_overflow {e : Nat} (he : e < 1023) : (2 : ℚ) ^ e < overflow :=
  (pow_lt_pow_right₀ (by norm_num) he).trans_le pow_le_overflow

theorem one_lt_overflow : 1 < overflow := by
  rw [← pow_zero (2 : ℚ)]
  exact two_pow_lt_overflow (Nat.succ_pos 1022)

theorem overflowUnits_eq : (overflowUnits : ℚ) = overflow * unitsInOne := by
  have hpow (a b c d e : Nat) (h : c = a + d) (hb : b = d + e) :
      (((2 ^ a - 1) * 2 ^ b : Nat) : ℚ) = (2 ^ c - 2 ^ d) * (2 ^ e : Nat) := by
    rw [h, hb, Nat.cast_mul, Nat.cast_sub Nat.one_le_two_pow]
    push_cast
    ring
  unfold overflow
  rw [unitsInOne_eq]
  exact hpow 54 2044 1024 970 1074 rfl rfl

/-- **A literal below the overflow gives a nearest number.** -/
theorem isNearest_ofDecimal (s : Bool) {c : Nat} {e : Int} (h : (c : ℚ) * 10 ^ e < overflow) :
    IsNearest (signFactor s * (c * 10 ^ e)) (ofDecimal s c e) := by
  have hU := unitsInOne_cast_pos
  obtain ⟨n, d, hd, hratio⟩ := exists_ratio_decimal c e
  have hdq : (0 : ℚ) < d := by exact_mod_cast hd
  have hlt : n < overflowUnits * d := by
    have : (n : ℚ) / d < overflowUnits := by
      rw [overflowUnits_eq, ← hratio]
      exact mul_lt_mul_of_pos_right h hU
    rw [div_lt_iff₀ hdq] at this
    exact_mod_cast this
  rw [ofDecimal_eq_ofUnits s hd hratio, eq_div_of_mul_eq hU.ne' hratio]
  exact isNearest_ofUnits s hd hlt

theorem isNegative_ofDecimal (s : Bool) (c : Nat) (e : Int) :
    (ofDecimal s c e).isNegative = s := by
  obtain ⟨n, d, hd, hratio⟩ := exists_ratio_decimal c e
  rw [ofDecimal_eq_ofUnits s hd hratio, isNegative_ofUnits]

end Binary64

end Planar
