/-
Rounding to the nearest rank, as a comparison.

`nearestRank n d` is computed from a bit length, a shift and a rounding to whole
steps.  Nothing of that matters to a proof.  What matters is where the result
changes, and that is one statement:

    nearestRank n d ≤ r   ↔   n / d is not past the boundary above r,
                              and if it is on it, r is even

(`nearestRank_le_iff`).  A natural number is determined by the numbers it is at
most, so this says everything about rounding.  From it come, in a few lines each,
that rounding depends on the ratio alone (`nearestRank_congr`), that it keeps the
order (`nearestRank_mono`), and that it fixes the magnitudes of the format
(`nearestRank_units`).
-/
import Planar.Proofs.Binary64.Magnitude

namespace Planar

open Rank (units boundary)

/-! ### Rounding to a whole number -/

/-- The two whole numbers that a ratio can be rounded to, and when. -/
theorem roundHalfEven_le_iff {n d : Nat} (hd : 0 < d) (m : Nat) :
    roundHalfEven n d ≤ m ↔
      2 * n < (2 * m + 1) * d ∨ (2 * n = (2 * m + 1) * d ∧ m % 2 = 0) := by
  have hsplit : d * (n / d) + n % d = n := Nat.div_add_mod n d
  have hrest : n % d < d := Nat.mod_lt n hd
  unfold roundHalfEven
  generalize n / d = q at *
  generalize n % d = t at *
  have hstep : (2 * m + 1) * d = 2 * (d * m) + d := by ring
  rw [hstep]
  rcases Nat.lt_trichotomy m q with hlt | rfl | hgt
  · have hmul : d * (m + 1) ≤ d * q := Nat.mul_le_mul_left d hlt
    rw [Nat.mul_succ] at hmul
    dsimp only
    split
    · omega
    · split <;> omega
  · dsimp only
    split
    · omega
    · split <;> omega
  · have hmul : d * (q + 1) ≤ d * m := Nat.mul_le_mul_left d hgt
    rw [Nat.mul_succ] at hmul
    dsimp only
    split
    · omega
    · split <;> omega

/-! ### Rounding to a rank -/

/-- The magnitude `n / d` is not past the boundary above rank `r`, nor on it if
`r` is odd. -/
def Within (n d r : Nat) : Prop :=
  2 * n < boundary r * d ∨ (2 * n = boundary r * d ∧ r % 2 = 0)

theorem Within.mono {n d r s : Nat} (hd : 0 < d) (h : Within n d r) (hrs : r ≤ s) :
    Within n d s := by
  rcases Nat.lt_or_eq_of_le hrs with hlt | rfl
  · have hb : boundary r * d < boundary s * d :=
      Nat.mul_lt_mul_of_pos_right (Rank.boundary_strictMono hlt) hd
    unfold Within at *
    omega
  · exact h

/-- The block that rounding chooses, and the steps into it. -/
theorem nearestRank_eq (n d : Nat) :
    nearestRank n d = ((n / d).log2 - 52) * 2 ^ 52
      + roundHalfEven n (d * 2 ^ ((n / d).log2 - 52)) := by
  unfold nearestRank
  simp only [Nat.shiftLeft_eq]

/-- The chosen block holds the magnitude. -/
theorem block_bounds {n d : Nat} (hd : 0 < d) :
    n < 2 ^ 53 * (d * 2 ^ ((n / d).log2 - 52)) ∧
      ((n / d).log2 - 52 = 0 ∨ 2 ^ 52 * (d * 2 ^ ((n / d).log2 - 52)) ≤ n) := by
  have hup : n / d < 2 ^ ((n / d).log2 + 1) := Nat.lt_log2_self
  have hlow : (n / d).log2 - 52 = 0 ∨ 2 ^ (n / d).log2 ≤ n / d := by
    by_cases hzero : n / d = 0
    · simp [hzero]
    · exact Or.inr (Nat.log2_self_le hzero)
  generalize (n / d).log2 = l at *
  constructor
  · have hpow : 2 ^ (l + 1) ≤ 2 ^ (53 + (l - 52)) := Nat.pow_le_pow_right (by omega) (by omega)
    have hlt : n / d < 2 ^ (53 + (l - 52)) := Nat.lt_of_lt_of_le hup hpow
    rw [Nat.div_lt_iff_lt_mul hd, Nat.pow_add] at hlt
    calc n < 2 ^ 53 * 2 ^ (l - 52) * d := hlt
      _ = 2 ^ 53 * (d * 2 ^ (l - 52)) := by ring
  · rcases Nat.eq_zero_or_pos (l - 52) with hzero | hpos
    · exact Or.inl hzero
    · refine Or.inr ?_
      have hle : 2 ^ (52 + (l - 52)) ≤ n / d := by
        rw [Nat.add_sub_cancel' (by omega)]
        exact hlow.resolve_left (by omega)
      rw [Nat.le_div_iff_mul_le hd, Nat.pow_add] at hle
      calc 2 ^ 52 * (d * 2 ^ (l - 52)) = 2 ^ 52 * 2 ^ (l - 52) * d := by ring
        _ ≤ n := hle

/-- The steps into the chosen block. -/
theorem steps_bounds {n d : Nat} (hd : 0 < d) :
    roundHalfEven n (d * 2 ^ ((n / d).log2 - 52)) ≤ 2 ^ 53 ∧
      ((n / d).log2 - 52 = 0 ∨ 2 ^ 52 ≤ roundHalfEven n (d * 2 ^ ((n / d).log2 - 52))) := by
  obtain ⟨hup, hlow⟩ := block_bounds (n := n) hd
  have hD : 0 < d * 2 ^ ((n / d).log2 - 52) := Nat.mul_pos hd (Nat.two_pow_pos _)
  generalize d * 2 ^ ((n / d).log2 - 52) = D at *
  refine ⟨(roundHalfEven_le_iff hD _).mpr (Or.inl (by omega)), ?_⟩
  refine hlow.imp_right fun hle => ?_
  by_contra hshort
  have hround : 2 * n ≤ (2 * (2 ^ 52 - 1) + 1) * D := by
    have hle : roundHalfEven n D ≤ 2 ^ 52 - 1 := by omega
    rcases (roundHalfEven_le_iff hD _).mp hle with hlt | ⟨heq, -⟩
    · exact hlt.le
    · exact heq.le
  omega

/-- The magnitude is not past the boundary above its rounding. -/
theorem within_nearestRank {n d : Nat} (hd : 0 < d) : Within n d (nearestRank n d) := by
  obtain ⟨hup, -⟩ := block_bounds (n := n) hd
  obtain ⟨htop, hbottom⟩ := steps_bounds (n := n) hd
  have hD : 0 < d * 2 ^ ((n / d).log2 - 52) := Nat.mul_pos hd (Nat.two_pow_pos _)
  have hround := roundHalfEven_le_iff (n := n) hD
    (roundHalfEven n (d * 2 ^ ((n / d).log2 - 52)))
  rw [nearestRank_eq]
  generalize (n / d).log2 - 52 = k at *
  generalize roundHalfEven n (d * 2 ^ k) = m at *
  rcases Nat.lt_or_eq_of_le htop with hlt | rfl
  · -- Inside the block the boundary is that of the rounding to whole steps.
    have hb : boundary (k * 2 ^ 52 + m) * d = (2 * m + 1) * (d * 2 ^ k) := by
      rw [Rank.boundary_block hbottom hlt]
      ring
    unfold Within
    rw [hb]
    have := hround.mp (Nat.le_refl m)
    omega
  · -- A carry to the top of the block leaves the magnitude below it.
    have hunits : units (k * 2 ^ 52 + 2 ^ 53) = 2 ^ 53 * 2 ^ k := Rank.units_block hbottom htop
    have hb := Rank.two_mul_units_lt_boundary (k * 2 ^ 52 + 2 ^ 53)
    rw [hunits] at hb
    refine Or.inl ?_
    calc 2 * n < 2 * (2 ^ 53 * (d * 2 ^ k)) := by omega
      _ = 2 * (2 ^ 53 * 2 ^ k) * d := by ring
      _ ≤ boundary (k * 2 ^ 52 + 2 ^ 53) * d := Nat.mul_le_mul_right d hb.le

/-- The magnitude is past the boundary below its rounding. -/
theorem not_within_of_succ_eq {n d s : Nat} (hd : 0 < d) (hs : s + 1 = nearestRank n d) :
    ¬ Within n d s := by
  obtain ⟨-, hlow⟩ := block_bounds (n := n) hd
  obtain ⟨htop, hbottom⟩ := steps_bounds (n := n) hd
  have hD : 0 < d * 2 ^ ((n / d).log2 - 52) := Nat.mul_pos hd (Nat.two_pow_pos _)
  have hround := fun j => roundHalfEven_le_iff (n := n) hD j
  rw [nearestRank_eq] at hs
  generalize (n / d).log2 - 52 = k at *
  generalize roundHalfEven n (d * 2 ^ k) = m at *
  by_cases hfirst : k ≠ 0 ∧ m = 2 ^ 52
  · -- The block's first rank: the magnitude is at least that rank's.
    obtain ⟨hk, rfl⟩ := hfirst
    have hunits : units (k * 2 ^ 52 + 2 ^ 52) = 2 ^ 52 * 2 ^ k :=
      Rank.units_block (Or.inr (Nat.le_refl _)) htop
    have hb := Rank.boundary_lt_two_mul_units s
    rw [hs, hunits] at hb
    have hle := hlow.resolve_left hk
    have hlt : boundary s * d < 2 * n := by
      calc boundary s * d < 2 * (2 ^ 52 * 2 ^ k) * d := Nat.mul_lt_mul_of_pos_right hb hd
        _ = 2 * (2 ^ 52 * (d * 2 ^ k)) := by ring
        _ ≤ 2 * n := by omega
    unfold Within
    omega
  · -- Any other rank: the rounding to whole steps was past the step before.
    obtain ⟨j, rfl⟩ : ∃ j, m = j + 1 := ⟨m - 1, by omega⟩
    obtain rfl : s = k * 2 ^ 52 + j := by omega
    have hb : boundary (k * 2 ^ 52 + j) * d = (2 * j + 1) * (d * 2 ^ k) := by
      rw [Rank.boundary_block (by omega) (by omega)]
      ring
    have hpast := (hround j).not.mp (by omega)
    unfold Within
    rw [hb]
    omega

/-- **Rounding stays at or below a rank exactly when the magnitude is within its
boundary.** -/
theorem nearestRank_le_iff {n d : Nat} (hd : 0 < d) (r : Nat) :
    nearestRank n d ≤ r ↔ Within n d r := by
  constructor
  · intro hle
    exact (within_nearestRank hd).mono hd hle
  · intro hw
    by_contra hlt
    obtain ⟨s, hs⟩ : ∃ s, s + 1 = nearestRank n d := ⟨nearestRank n d - 1, by omega⟩
    exact not_within_of_succ_eq hd hs (hw.mono hd (by omega))

/-! ### What follows -/

/-- What is past a boundary is rounded past the rank below it. -/
theorem lt_nearestRank {n d s : Nat} (hd : 0 < d) (h : boundary s * d < 2 * n) :
    s < nearestRank n d := by
  by_contra hle
  have hwithin := (nearestRank_le_iff hd s).mp (not_lt.mp hle)
  unfold Within at hwithin
  omega

/-- Rounding keeps the order. -/
theorem nearestRank_mono {n d n' d' : Nat} (hd : 0 < d) (hd' : 0 < d')
    (h : n * d' ≤ n' * d) : nearestRank n d ≤ nearestRank n' d' := by
  have hw := within_nearestRank (n := n') hd'
  rw [nearestRank_le_iff hd]
  generalize nearestRank n' d' = r at *
  unfold Within at *
  by_contra hpast
  have hge : boundary r * d ≤ 2 * n := by omega
  have hle' : 2 * n' ≤ boundary r * d' := by omega
  have h1 : boundary r * d * d' ≤ 2 * n * d' := Nat.mul_le_mul_right d' hge
  have h2 : 2 * n' * d ≤ boundary r * d' * d := Nat.mul_le_mul_right d hle'
  have hcomm : boundary r * d * d' = boundary r * d' * d := Nat.mul_right_comm _ _ _
  have hassoc : 2 * n * d' ≤ 2 * n' * d := by
    rw [Nat.mul_assoc, Nat.mul_assoc]
    exact Nat.mul_le_mul_left 2 h
  -- Both magnitudes then lie on the boundary, and both roundings go by the same parity.
  have htie : 2 * n = boundary r * d :=
    Nat.eq_of_mul_eq_mul_right hd' (by omega)
  have htie' : 2 * n' = boundary r * d' :=
    Nat.eq_of_mul_eq_mul_right hd (by omega)
  omega

/-- Rounding depends on the ratio alone. -/
theorem nearestRank_congr {n d n' d' : Nat} (hd : 0 < d) (hd' : 0 < d')
    (h : n * d' = n' * d) : nearestRank n d = nearestRank n' d' :=
  Nat.le_antisymm (nearestRank_mono hd hd' h.le) (nearestRank_mono hd' hd h.ge)

/-- The magnitudes of the format are rounded to themselves. -/
theorem nearestRank_units (r : Nat) {d : Nat} (hd : 0 < d) :
    nearestRank (units r * d) d = r := by
  refine Nat.le_antisymm ((nearestRank_le_iff hd r).mpr (Or.inl ?_)) ?_
  · rw [← Nat.mul_assoc]
    exact Nat.mul_lt_mul_of_pos_right (Rank.two_mul_units_lt_boundary r) hd
  · rcases r with _ | s
    · exact Nat.zero_le _
    · by_contra hlt
      have hw := (nearestRank_le_iff (n := units (s + 1) * d) hd s).mp (by omega)
      have hb : boundary s * d < 2 * (units (s + 1) * d) := by
        rw [← Nat.mul_assoc]
        exact Nat.mul_lt_mul_of_pos_right (Rank.boundary_lt_two_mul_units s) hd
      unfold Within at hw
      omega

theorem nearestRank_zero {d : Nat} (hd : 0 < d) : nearestRank 0 d = 0 := by
  have h := nearestRank_units 0 hd
  rwa [Rank.units_zero, Nat.zero_mul] at h

end Planar
