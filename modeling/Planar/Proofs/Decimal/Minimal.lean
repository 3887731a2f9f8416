/-
No decimal that reads back is shorter than the shortest one.

The shortest decimal lies on the coarsest grid on which anything reads back, so nothing
that reads back has a greater power of ten (`exponent_le`).  The rest follows from this
and from the order.  A coefficient that ten divides would be on a coarser grid.  So would
be a power of ten between the shortest decimal and one with fewer digits, and it would
read back like the two of them (`length_digits_le`).

Decimals with the same power of ten differ in the coefficient at most, whatever is done
about ties.  They do differ in an exact tie with an even decimal below
(`shortest_even_eq_or`).
-/
import Planar.Proofs.Decimal.Coarsest
import Planar.Proofs.Decimal.Layout

namespace Planar.Decimal

open Rank (units)

attribute [local irreducible] stepsInUnit neighbour?

/-! ### The shortest decimal -/

theorem toRat_nonneg (d : Decimal) : 0 ≤ d.toRat :=
  mul_nonneg (Nat.cast_nonneg _) (zpow_nonneg (by norm_num) _)

/-- Zeros behind the digits count in the power of ten. -/
theorem toRat_mul_pow (c k : Nat) (e : Int) : toRat ⟨c * 10 ^ k, e⟩ = toRat ⟨c, e + k⟩ := by
  unfold toRat
  dsimp only
  rw [zpow_add₀ (by norm_num), zpow_natCast]
  push_cast
  ring

section

variable {r : Rank} {d : Decimal}

theorem rankOf_shortest (tie : Tie) (r : Rank) : rankOf (shortest tie r).toRat = r.val :=
  rankOf_of_ofDecimal (ofDecimal_shortest tie false r)

theorem coefficient_ne_zero (hr : r.val ≠ 0) (hd : rankOf d.toRat = r.val) :
    d.coefficient ≠ 0 := by
  intro hzero
  unfold toRat at hd
  rw [hzero, Nat.cast_zero, zero_mul, rankOf_zero] at hd
  exact hr hd.symm

/-- **No decimal with a greater power of ten reads back.** -/
theorem exponent_le (tie : Tie) (hr : r.val ≠ 0) (hd : rankOf d.toRat = r.val) :
    d.exponent ≤ (shortest tie r).exponent := by
  obtain ⟨j, hexp, -, hnone⟩ := coarsest tie hr
  by_contra hlt
  obtain ⟨k, hk⟩ : ∃ k : Nat, d.exponent = ((j + 1 : Nat) : Int) - 1074 + k :=
    ⟨(d.exponent + 1074 - (j + 1)).toNat, by omega⟩
  refine hnone (d.coefficient * 10 ^ k) (readsBack_iff.mpr ?_)
  rw [toRat_mul_pow, ← hk]
  exact hd

theorem exponent_shortest_eq (tie tie' : Tie) (hr : r.val ≠ 0) :
    (shortest tie r).exponent = (shortest tie' r).exponent :=
  le_antisymm (exponent_le tie' hr (rankOf_shortest tie r))
    (exponent_le tie hr (rankOf_shortest tie' r))

/-- The last digit is not a zero. -/
theorem coefficient_mod_ten (tie : Tie) (hr : r.val ≠ 0) :
    (shortest tie r).coefficient % 10 ≠ 0 := by
  intro hmod
  have hback := rankOf_shortest tie r
  have hle := exponent_le tie hr
    (d := ⟨(shortest tie r).coefficient / 10, (shortest tie r).exponent + (1 : Nat)⟩)
  rw [← toRat_mul_pow, pow_one, Nat.div_mul_cancel (Nat.dvd_of_mod_eq_zero hmod)] at hle
  have := hle hback
  dsimp only at this
  omega

/-- **No decimal that reads back has fewer digits.** -/
theorem length_digits_le (tie : Tie) (hr : r.val ≠ 0) (hd : rankOf d.toRat = r.val) :
    (shortest tie r).digits.length ≤ d.digits.length := by
  have hexp := exponent_le tie hr hd
  have hback := rankOf_shortest tie r
  have hpos := d.length_digits_pos
  by_contra hlt
  have habove : d.coefficient < 10 ^ d.digits.length :=
    (Nat.length_toDigits_le_iff (by omega) hpos).mp le_rfl
  have hbelow : 10 ^ d.digits.length ≤ (shortest tie r).coefficient :=
    Nat.le_of_not_lt fun h => hlt ((Nat.length_toDigits_le_iff (by omega) hpos).mpr h)
  -- The power of ten between them has a greater exponent and reads back too.
  have hpower := exponent_le tie hr
    (d := ⟨10 ^ (d.digits.length - 1), (shortest tie r).exponent + (1 : Nat)⟩)
  rw [← toRat_mul_pow, ← pow_add, Nat.sub_add_cancel hpos] at hpower
  generalize shortest tie r = a at *
  have hle : d.toRat ≤ toRat ⟨10 ^ d.digits.length, a.exponent⟩ := by
    refine mul_le_mul (by exact_mod_cast habove.le) ?_ (zpow_nonneg (by norm_num) _)
      (Nat.cast_nonneg _)
    exact zpow_le_zpow_right₀ (by norm_num) hexp
  have hge : toRat ⟨10 ^ d.digits.length, a.exponent⟩ ≤ a.toRat :=
    mul_le_mul_of_nonneg_right (by exact_mod_cast hbelow) (zpow_nonneg (by norm_num) _)
  have hmono := rankOf_mono d.toRat_nonneg hle
  have hmono' := rankOf_mono (toRat_nonneg _) hge
  have := hpower (by omega)
  dsimp only at this
  omega

/-- A magnitude halfway between two points of a grid, as a value and in steps. -/
theorem toRat_eq_halfway_iff {m j : Nat} :
    (Binary64.finite false r).toRat = (m + 1 / 2) * 10 ^ ((j : Int) - 1074) ↔
      2 * (units r * stepsInUnit) = (2 * m + 1) * 10 ^ j := by
  have hU := Binary64.unitsInOne_cast_pos
  have hD : (0 : ℚ) < stepsInUnit := by exact_mod_cast stepsInUnit_pos
  have hratio := grid_ratio (2 * m + 1) j
  rw [eq_div_iff hD.ne'] at hratio
  rw [Binary64.toRat_finite, Binary64.signFactor_false, one_mul, div_eq_iff hU.ne']
  push_cast at hratio
  constructor
  · intro h
    have hsteps : (2 * (units r * stepsInUnit) : ℚ) = (2 * m + 1) * 10 ^ j := by
      rw [h, ← hratio]
      ring
    exact_mod_cast hsteps
  · intro h
    have hsteps : (2 * (units r * stepsInUnit) : ℚ) = (2 * m + 1) * 10 ^ j := by exact_mod_cast h
    refine mul_right_cancel₀ hD.ne' ?_
    linarith

/-- **The ties.**  With ties to even the shortest decimal is another one only where the
magnitude is exactly halfway between an even decimal and the next one.  Both read back,
and it is the lower one. -/
theorem shortest_even_eq_or (hr : r.val ≠ 0) :
    shortest .even r = shortest .up r ∨
      ∃ (m : Nat) (e : Int), m % 2 = 0 ∧
        (Binary64.finite false r).toRat = (m + 1 / 2) * 10 ^ e ∧
        shortest .even r = ⟨m, e⟩ ∧ shortest .up r = ⟨m + 1, e⟩ := by
  obtain ⟨j, hexp, hfound, -⟩ := coarsest .even hr
  obtain ⟨j', hexp', hfound', -⟩ := coarsest .up hr
  have heq := exponent_shortest_eq .even .up hr
  obtain rfl : j = j' := by omega
  generalize shortest .even r = a at *
  generalize shortest .up r = b at *
  obtain ⟨c, e⟩ := a
  obtain ⟨c', e'⟩ := b
  dsimp only at *
  obtain rfl := heq
  rcases neighbour?_even_eq_or j with hsame | ⟨m, heven, hhalf, hm, hm'⟩
  · left
    rw [hfound, hfound'] at hsame
    rw [Option.some.inj hsame]
  · right
    rw [hfound] at hm
    rw [hfound'] at hm'
    refine ⟨m, e, heven, ?_, by rw [Option.some.inj hm], by rw [Option.some.inj hm']⟩
    rw [hexp]
    exact toRat_eq_halfway_iff.mpr hhalf

/-- In an exact tie on the coarsest grid the two differ. -/
theorem shortest_of_halfway (hr : r.val ≠ 0) {m : Nat} {e : Int}
    (hexp : (shortest .up r).exponent = e) (heven : m % 2 = 0)
    (hhalf : (Binary64.finite false r).toRat = (m + 1 / 2) * 10 ^ e)
    (hbelow : rankOf (toRat ⟨m, e⟩) = r.val) (habove : rankOf (toRat ⟨m + 1, e⟩) = r.val) :
    shortest .even r = ⟨m, e⟩ ∧ shortest .up r = ⟨m + 1, e⟩ := by
  obtain ⟨j, hj, hfound, -⟩ := coarsest .up hr
  obtain ⟨j', hj', hfound', -⟩ := coarsest .even hr
  have heq := exponent_shortest_eq .even .up hr
  obtain rfl : j = j' := by omega
  obtain rfl : e = (j : Int) - 1074 := hexp.symm.trans hj
  obtain ⟨hlower, hupper⟩ := neighbour?_of_halfway (toRat_eq_halfway_iff.mp hhalf)
    (readsBack_iff.mpr hbelow) (readsBack_iff.mpr habove)
  rw [hfound', heven] at hlower
  rw [hfound] at hupper
  rw [hexp] at heq
  generalize shortest .even r = a at *
  generalize shortest .up r = b at *
  obtain ⟨c, e⟩ := a
  obtain ⟨c', e'⟩ := b
  dsimp only at *
  rw [heq, hexp, Option.some.inj hlower, Option.some.inj hupper]
  exact ⟨rfl, rfl⟩

/-! ### Sizes -/

theorem pow_size_le (h : d.coefficient ≠ 0) : (10 : ℚ) ^ d.size ≤ d.toRat := by
  have hpos := d.length_digits_pos
  have hsize : d.size = ((d.digits.length - 1 : Nat) : Int) + d.exponent := by
    unfold size
    omega
  have hle : 10 ^ (d.digits.length - 1) ≤ d.coefficient := by
    rcases Nat.eq_zero_or_pos (d.digits.length - 1) with hone | hmore
    · rw [hone]
      omega
    · refine Nat.le_of_not_lt fun hlt => ?_
      have : d.digits.length ≤ d.digits.length - 1 :=
        (Nat.length_toDigits_le_iff (by omega) hmore).mpr hlt
      omega
  rw [hsize, zpow_add₀ (by norm_num), zpow_natCast]
  exact mul_le_mul_of_nonneg_right (by exact_mod_cast hle) (zpow_nonneg (by norm_num) _)

theorem toRat_lt_pow (d : Decimal) : d.toRat < (10 : ℚ) ^ (d.size + 1) := by
  have hsize : d.size + 1 = (d.digits.length : Int) + d.exponent := by
    unfold size
    omega
  have hlt : d.coefficient < 10 ^ d.digits.length :=
    (Nat.length_toDigits_le_iff (by omega) d.length_digits_pos).mp le_rfl
  rw [hsize, zpow_add₀ (by norm_num), zpow_natCast]
  exact mul_lt_mul_of_pos_right (by exact_mod_cast hlt) (zpow_pos (by norm_num) _)

/-- **A size is a bound on the number.**  The shortest decimal has at least the size of a power
of ten if the number is at least the one that this power is read as. -/
theorem le_size_shortest_iff (tie : Tie) {p : Rank} {k : Int} (hp : shortest tie p = ⟨1, k⟩)
    (hr : r.val ≠ 0) : k ≤ (shortest tie r).size ↔ p.val ≤ r.val := by
  have hpower := rankOf_shortest tie p
  have hone : toRat ⟨1, k⟩ = 10 ^ k := by
    unfold toRat
    simp
  rw [hp, hone] at hpower
  have hback := rankOf_shortest tie r
  have hne := coefficient_ne_zero hr hback
  constructor
  · intro hle
    have hmono := rankOf_mono (zpow_nonneg (by norm_num) k)
      ((zpow_le_zpow_right₀ (by norm_num) hle).trans (pow_size_le hne))
    omega
  · intro hle
    by_contra hlt
    have hmono := rankOf_mono (toRat_nonneg _) ((toRat_lt_pow (shortest tie r)).le.trans
      (zpow_le_zpow_right₀ (by norm_num) (show (shortest tie r).size + 1 ≤ k by omega)))
    obtain rfl : p = r := Fin.ext (by omega)
    rw [hp] at hlt
    have hlength : (Nat.toDigits 10 1).length = 1 := by decide
    unfold size digits at hlt
    dsimp only at hlt
    omega

end

end Planar.Decimal
