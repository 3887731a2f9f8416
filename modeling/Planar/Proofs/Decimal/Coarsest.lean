/-
The search for the shortest decimal stops on the coarsest grid.

It looks at two points of each grid only, but what reads back as one rank has no gaps:
rounding keeps the order, so with two magnitudes everything between them reads back as
well.  A point that reads back therefore makes the neighbour on its side of the magnitude
read back (`exists_neighbour?`), and where the search finds nothing there is nothing to
find.  On the first grid of all there is nothing below the magnitude but zero, and the
power of ten above it is the only candidate.

So the grid is the coarsest one on which anything reads back (`coarsest`).  How ties go
does not enter into where the search stops.  It shows only in the coefficient, and there
only where the magnitude is exactly halfway between two points that both read back and
the lower one is even (`neighbour?_even_eq_or`).
-/
import Planar.Proofs.Decimal.Shortest

namespace Planar

open Rank (units boundary scale)

/-! ### The rank of a magnitude -/

/-- The rank that a magnitude is rounded to. -/
def rankOf (q : ℚ) : Nat := nearestRank (q * unitsInOne).num.toNat (q * unitsInOne).den

theorem rankOf_eq {q : ℚ} {n d : Nat} (hd : 0 < d) (h : q * unitsInOne = n / d) :
    rankOf q = nearestRank n d := by
  have hdq : (d : ℚ) ≠ 0 := by exact_mod_cast hd.ne'
  have hnonneg : 0 ≤ q * unitsInOne := by
    rw [h]
    positivity
  have hnum : ((q * unitsInOne).num.toNat : ℚ) = (q * unitsInOne).num := by
    exact_mod_cast Int.toNat_of_nonneg (Rat.num_nonneg.mpr hnonneg)
  have hden : ((q * unitsInOne).den : ℚ) ≠ 0 := by exact_mod_cast (q * unitsInOne).den_ne_zero
  have hratio : ((q * unitsInOne).num.toNat : ℚ) / (q * unitsInOne).den = n / d := by
    rw [hnum, Rat.num_div_den, h]
  rw [div_eq_div_iff hden hdq] at hratio
  exact nearestRank_congr (q * unitsInOne).den_pos hd (by exact_mod_cast hratio)

theorem rankOf_mono {p q : ℚ} (hp : 0 ≤ p) (h : p ≤ q) : rankOf p ≤ rankOf q := by
  have hU := Binary64.unitsInOne_cast_pos
  obtain ⟨n, d, hd, hn⟩ := Binary64.exists_ratio (mul_nonneg hp hU.le)
  obtain ⟨n', d', hd', hn'⟩ := Binary64.exists_ratio (mul_nonneg (hp.trans h) hU.le)
  have hdq : (0 : ℚ) < d := by exact_mod_cast hd
  have hdq' : (0 : ℚ) < d' := by exact_mod_cast hd'
  have hle : (n : ℚ) / d ≤ n' / d' := by
    rw [← hn, ← hn']
    exact mul_le_mul_of_nonneg_right h hU.le
  rw [div_le_div_iff₀ hdq hdq'] at hle
  rw [rankOf_eq hd hn, rankOf_eq hd' hn']
  exact nearestRank_mono hd hd' (by exact_mod_cast hle)

theorem rankOf_zero : rankOf 0 = 0 := by
  have hratio : (0 : ℚ) * unitsInOne = (0 : Nat) / (1 : Nat) := by simp
  rw [rankOf_eq Nat.one_pos hratio, nearestRank_zero Nat.one_pos]

theorem Binary64.ofRank_eq_finite_iff {s t : Bool} {n : Nat} {r : Rank} :
    ofRank s n = finite t r ↔ s = t ∧ n = r.val := by
  unfold ofRank
  by_cases h : n < 0x7ff0000000000000
  · rw [dif_pos h, finite.injEq, Fin.ext_iff]
  · have := r.isLt
    rw [dif_neg h]
    simp
    omega

namespace Decimal

attribute [local irreducible] stepsInUnit neighbour?

/-- **A decimal is read as the number of a rank if its magnitude is rounded to it.** -/
theorem ofDecimal_eq_finite_iff {s t : Bool} {d : Decimal} {r : Rank} :
    Binary64.ofDecimal s d.coefficient d.exponent = .finite t r ↔
      s = t ∧ rankOf d.toRat = r.val := by
  obtain ⟨n, m, hm, hratio⟩ := Binary64.exists_ratio_decimal d.coefficient d.exponent
  have hrank : rankOf d.toRat = nearestRank n m := rankOf_eq hm hratio
  rw [Binary64.ofDecimal_eq_ofUnits s hm hratio, ← Binary64.ofRank_eq_finite_iff, hrank]
  rfl

theorem rankOf_of_ofDecimal {s t : Bool} {c : Nat} {e : Int} {r : Rank}
    (h : Binary64.ofDecimal s c e = .finite t r) : rankOf (toRat ⟨c, e⟩) = r.val :=
  ((ofDecimal_eq_finite_iff (d := ⟨c, e⟩)).mp h).2

theorem readsBack_eq {r i c : Nat} :
    readsBack r i c = true ↔ nearestRank (c * 10 ^ i) stepsInUnit = r := beq_iff_eq

theorem readsBack_iff {r i c : Nat} :
    readsBack r i c = true ↔ rankOf (toRat ⟨c, (i : Int) - 1074⟩) = r := by
  have hrank : rankOf (toRat ⟨c, (i : Int) - 1074⟩) = nearestRank (c * 10 ^ i) stepsInUnit :=
    rankOf_eq stepsInUnit_pos (grid_ratio c i)
  rw [readsBack_eq, hrank]

/-! ### Neighbours -/

/-- What lies between two points that read back reads back as well. -/
theorem readsBack_of_between {r i j k a b c : Nat} (ha : readsBack r i a = true)
    (hb : readsBack r j b = true) (hac : a * 10 ^ i ≤ c * 10 ^ k) (hcb : c * 10 ^ k ≤ b * 10 ^ j) :
    readsBack r k c = true := by
  have hD := stepsInUnit_pos
  rw [readsBack_eq] at *
  have hle := nearestRank_mono hD hD (Nat.mul_le_mul_right stepsInUnit hac)
  have hge := nearestRank_mono hD hD (Nat.mul_le_mul_right stepsInUnit hcb)
  omega

variable {r steps : Nat} {tie : Tie}

/-- If anything on a grid reads back, the search finds something there. -/
theorem exists_neighbour? {i c : Nat} (hsteps : readsBack r 0 steps = true)
    (hc : readsBack r i c = true) : ∃ b, neighbour? tie r steps i = some b := by
  have hpos : 0 < 10 ^ i := Nat.pow_pos (by omega)
  have hbelow : steps / 10 ^ i * 10 ^ i ≤ steps * 10 ^ 0 := by
    rw [pow_zero, Nat.mul_one]
    exact Nat.div_mul_le_self _ _
  have habove : steps * 10 ^ 0 ≤ (steps / 10 ^ i + 1) * 10 ^ i := by
    rw [pow_zero, Nat.mul_one]
    exact (Nat.lt_div_mul_add hpos).le.trans_eq (Nat.succ_mul _ _).symm
  have hside : readsBack r i (steps / Nat.pow 10 i) = true ∨
      readsBack r i (steps / Nat.pow 10 i + 1) = true := by
    rcases Nat.lt_or_ge (steps / 10 ^ i) c with hlt | hge
    · exact .inr (readsBack_of_between hsteps hc habove (Nat.mul_le_mul_right _ hlt))
    · exact .inl (readsBack_of_between hc hsteps (Nat.mul_le_mul_right _ hge) hbelow)
  unfold neighbour?
  dsimp only
  split
  · next hfalse hfalse' =>
    rw [hfalse, hfalse'] at hside
    simp at hside
  · exact ⟨_, rfl⟩
  · exact ⟨_, rfl⟩
  · split
    · exact ⟨_, rfl⟩
    · split
      · exact ⟨_, rfl⟩
      · cases tie <;> exact ⟨_, rfl⟩

/-- On the finest grid it is the magnitude itself. -/
theorem neighbour?_zero (hsteps : readsBack r 0 steps = true) :
    neighbour? tie r steps 0 = some steps := by
  have hdiv : steps / Nat.pow 10 0 = steps := Nat.div_one steps
  have hmod : steps % Nat.pow 10 0 = 0 := Nat.mod_one steps
  unfold neighbour?
  simp only [hdiv, hmod, hsteps]
  cases readsBack r 0 (steps + 1) <;> rfl

/-- The two ways a tie can go differ only in an exact tie of an even point and the one
above it. -/
theorem neighbour?_even_eq_or (i : Nat) :
    neighbour? .even r steps i = neighbour? .up r steps i ∨
      ∃ m, m % 2 = 0 ∧ 2 * steps = (2 * m + 1) * 10 ^ i ∧
        neighbour? .even r steps i = some m ∧ neighbour? .up r steps i = some (m + 1) := by
  have hsplit : 10 ^ i * (steps / 10 ^ i) + steps % 10 ^ i = steps := Nat.div_add_mod _ _
  unfold neighbour?
  dsimp only
  split
  · exact .inl rfl
  · exact .inl rfl
  · exact .inl rfl
  · split
    · exact .inl rfl
    · next hle =>
      split
      · exact .inl rfl
      · next hge =>
        rcases Nat.mod_two_eq_zero_or_one (steps / Nat.pow 10 i) with heven | hodd
        · right
          refine ⟨steps / Nat.pow 10 i, heven, ?_, by rw [heven, Nat.add_zero], rfl⟩
          rw [Nat.pow_eq] at *
          have hmul : (2 * (steps / 10 ^ i) + 1) * 10 ^ i
              = 2 * (10 ^ i * (steps / 10 ^ i)) + 10 ^ i := by ring
          omega
        · left
          rw [hodd]

/-- What is found in an exact tie. -/
theorem neighbour?_of_halfway {i m : Nat} (h : 2 * steps = (2 * m + 1) * 10 ^ i)
    (hbelow : readsBack r i m = true) (habove : readsBack r i (m + 1) = true) :
    neighbour? .even r steps i = some (m + m % 2) ∧
      neighbour? .up r steps i = some (m + 1) := by
  have hpos : 0 < 10 ^ i := Nat.pow_pos (by omega)
  have hmul : (2 * m + 1) * 10 ^ i = 2 * (10 ^ i * m) + 10 ^ i := by ring
  obtain ⟨hdiv, hmod⟩ : steps / 10 ^ i = m ∧ steps % 10 ^ i = steps - 10 ^ i * m :=
    (Nat.div_mod_unique hpos).mpr ⟨by omega, by omega⟩
  have hrest : 2 * (steps % 10 ^ i) = 10 ^ i := by omega
  unfold neighbour?
  simp only [Nat.pow_eq, hdiv, hbelow, habove, hrest, Nat.lt_irrefl, if_false, and_self]

/-! ### The coarsest grid -/

/-- Where the search stops, and that it has found nothing before. -/
theorem searchFrom_spec (hsteps : readsBack r 0 steps = true) (i : Nat) :
    ∃ j ≤ i, (searchFrom tie r steps i).exponent = (j : Int) - 1074 ∧
      neighbour? tie r steps j = some (searchFrom tie r steps i).coefficient ∧
      ∀ k, j < k → k ≤ i → neighbour? tie r steps k = none := by
  induction i with
  | zero =>
      refine ⟨0, le_rfl, rfl, neighbour?_zero hsteps, ?_⟩
      intro k hlt hle
      omega
  | succ i ih =>
      rw [searchFrom_succ]
      split
      · next c hc =>
        refine ⟨i + 1, le_rfl, rfl, hc, ?_⟩
        intro k hlt hle
        omega
      · next hnone =>
        obtain ⟨j, hj, hexp, hfound, hbefore⟩ := ih
        refine ⟨j, by omega, hexp, hfound, ?_⟩
        intro k hlt hle
        rcases Nat.lt_or_ge i k with hlast | hk
        · rw [show k = i + 1 by omega]
          exact hnone
        · exact hbefore k hlt hk

/-- The search starts above the magnitude. -/
theorem lt_pow_indexAbove (n : Nat) : n < 10 ^ indexAbove n := by
  have hthree : (2 : Nat) ^ 93 ≤ 10 ^ 28 := by norm_num
  have hsmall : ∀ b < 93, (2 : Nat) ^ b ≤ 10 ^ (b / 3 + 1) := by decide
  have hbits : n < 2 ^ (n.log2 + 1) := Nat.lt_log2_self
  unfold indexAbove
  dsimp only
  generalize n.log2 + 1 = bits at *
  calc n < 2 ^ bits := hbits
    _ = (2 ^ 93) ^ (bits / 93) * 2 ^ (bits % 93) := by
      rw [← pow_mul, ← pow_add, Nat.div_add_mod]
    _ ≤ (10 ^ 28) ^ (bits / 93) * 10 ^ (bits % 93 / 3 + 1) :=
      Nat.mul_le_mul (Nat.pow_le_pow_left hthree _) (hsmall _ (Nat.mod_lt _ (by omega)))
    _ = 10 ^ (28 * (bits / 93) + bits % 93 / 3 + 1) := by
      rw [← pow_mul, ← pow_add, Nat.add_assoc]

/-- Ten times a magnitude and more is not read as its rank. -/
theorem not_readsBack_of_large {i c : Nat} (hr : r ≠ 0)
    (h : 10 * (units r * stepsInUnit) ≤ c * 10 ^ i) : ¬ readsBack r i c = true := by
  have hD := stepsInUnit_pos
  have hunits : 0 < units r := (Rank.units_pos_iff r).mpr (Nat.pos_of_ne_zero hr)
  have hnext : boundary r ≤ 3 * units r := by
    have hsucc := Rank.units_succ r
    have hstep : 2 ^ scale r ≤ units r := by
      rw [Rank.units_eq] at *
      exact Nat.le_mul_of_pos_left _ (Nat.pos_of_mul_pos_right hunits)
    unfold Rank.boundary
    omega
  have hpast : r < nearestRank (c * 10 ^ i) stepsInUnit := by
    refine lt_nearestRank hD ?_
    calc boundary r * stepsInUnit ≤ 3 * units r * stepsInUnit := Nat.mul_le_mul_right _ hnext
      _ = 3 * (units r * stepsInUnit) := Nat.mul_assoc _ _ _
      _ < 2 * (c * 10 ^ i) := by
        have := Nat.mul_pos hunits hD
        omega
  rw [readsBack_eq]
  exact hpast.ne'

/-- A search that starts above the magnitude stops on the coarsest grid on which anything
reads back. -/
theorem coarsest_searchFrom (tie : Tie) (hr : r ≠ 0) (hsteps : steps = units r * stepsInUnit)
    {i : Nat} (hstart : steps < 10 ^ i) :
    ∃ j : Nat, (searchFrom tie r steps i).exponent = (j : Int) - 1074 ∧
      neighbour? tie r steps j = some (searchFrom tie r steps i).coefficient ∧
      ∀ c, ¬ readsBack r (j + 1) c = true := by
  have hfinest : readsBack r 0 steps = true := by
    rw [hsteps]
    exact readsBack_finest r
  obtain ⟨j, hj, hexp, hfound, hbefore⟩ := searchFrom_spec hfinest i
  refine ⟨j, hexp, hfound, ?_⟩
  intro c hc
  rcases Nat.lt_or_ge j i with hlt | hge
  · obtain ⟨b, hb⟩ := exists_neighbour? hfinest hc
    rw [hbefore (j + 1) (Nat.lt_succ_self j) hlt] at hb
    cases hb
  · -- On the first grid of all there is nothing but zero below the magnitude.
    obtain rfl : j = i := Nat.le_antisymm hj hge
    rcases Nat.eq_zero_or_pos c with rfl | hpos
    · rw [readsBack_eq, Nat.zero_mul, nearestRank_zero stepsInUnit_pos] at hc
      exact hr hc.symm
    · refine not_readsBack_of_large hr ?_ hc
      rw [← hsteps, pow_succ]
      calc 10 * steps ≤ 10 * 10 ^ j := Nat.mul_le_mul_left 10 hstart.le
        _ = 1 * (10 ^ j * 10) := by ring
        _ ≤ c * (10 ^ j * 10) := Nat.mul_le_mul_right _ hpos

theorem coarsest (tie : Tie) (hr : r ≠ 0) :
    ∃ j : Nat, (shortest tie r).exponent = (j : Int) - 1074 ∧
      neighbour? tie r (units r * stepsInUnit) j = some (shortest tie r).coefficient ∧
      ∀ c, ¬ readsBack r (j + 1) c = true := by
  have hshortest : shortest tie r
      = searchFrom tie r (units r * stepsInUnit) (indexAbove (units r * stepsInUnit)) := by
    unfold shortest
    rw [if_neg hr]
  rw [hshortest]
  exact coarsest_searchFrom tie hr rfl (lt_pow_indexAbove _)

end Decimal

end Planar
