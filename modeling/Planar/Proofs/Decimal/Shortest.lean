/-
The shortest decimal reads back.

Every grid of the search tests its candidates by rounding them, and the finest
grid holds the magnitude itself.  So whichever grid the search stops on, its
coefficient rounds to the rank that was asked for (`readsBack_searchFrom`).

The search counts in steps of 10^i / 5^1074 units, a literal in powers of ten.
That the two are the same ratio is one identity, 2^1074 · 5^1074 = 10^1074, and
with it the decimal read as a literal is the number it was made from
(`ofDecimal_shortest`).
-/
import Planar.Decimal.Shortest
import Planar.Proofs.Binary64.Value

namespace Planar.Decimal

open Rank (units)

-- Both stand for numbers of several hundred digits, which no proof should compute.
attribute [local irreducible] stepsInUnit neighbour?

theorem stepsInUnit_eq : stepsInUnit = 5 ^ 1074 := by
  unfold stepsInUnit
  generalize 1074 = n
  exact Nat.pow_eq

theorem stepsInUnit_pos : 0 < stepsInUnit := by
  rw [stepsInUnit_eq]
  exact pow_pos (by omega) _

/-- A neighbour that the search accepts reads back. -/
theorem readsBack_of_neighbour? {tie : Tie} {r steps i c : Nat}
    (h : neighbour? tie r steps i = some c) : readsBack r i c = true := by
  unfold neighbour? at h
  dsimp only at h
  split at h
  · exact absurd h (by simp)
  · next hbelow _ =>
    obtain rfl := Option.some.inj h
    exact hbelow
  · next _ habove =>
    obtain rfl := Option.some.inj h
    exact habove
  · next hbelow habove =>
    split at h
    · obtain rfl := Option.some.inj h
      exact hbelow
    · split at h
      · obtain rfl := Option.some.inj h
        exact habove
      · cases tie with
        | up =>
            obtain rfl := Option.some.inj h
            exact habove
        | even =>
            obtain rfl := Option.some.inj h
            -- The even one of the two is the lower one or the one after it.
            rcases Nat.mod_two_eq_zero_or_one (steps / Nat.pow 10 i) with hz | ho
            · rw [hz]
              exact hbelow
            · rw [ho]
              exact habove

theorem searchFrom_succ (tie : Tie) (r steps i : Nat) :
    searchFrom tie r steps (i + 1) = match neighbour? tie r steps (i + 1) with
      | some c => ⟨c, (i + 1 : Nat) - 1074⟩
      | none => searchFrom tie r steps i := rfl

/-- On whichever grid the search stops, its coefficient reads back, if the finest
one's does. -/
theorem readsBack_searchFrom (tie : Tie) {r steps : Nat} (hfinest : readsBack r 0 steps = true)
    (i : Nat) :
    ∃ j : Nat, (searchFrom tie r steps i).exponent = (j : Int) - 1074 ∧
      readsBack r j (searchFrom tie r steps i).coefficient = true := by
  induction i with
  | zero => exact ⟨0, rfl, hfinest⟩
  | succ i ih =>
      rw [searchFrom_succ]
      split
      · next c hc => exact ⟨i + 1, rfl, readsBack_of_neighbour? hc⟩
      · exact ih

/-- The finest grid holds every magnitude. -/
theorem readsBack_finest (r : Nat) : readsBack r 0 (units r * stepsInUnit) = true := by
  unfold readsBack
  rw [Nat.pow_eq, Nat.pow_zero, Nat.mul_one, nearestRank_units r stepsInUnit_pos]
  exact beq_self_eq_true r

theorem shortest_eq_searchFrom (tie : Tie) {r : Nat} (hr : r ≠ 0) :
    ∃ i, shortest tie r = searchFrom tie r (units r * stepsInUnit) i := by
  unfold shortest
  rw [if_neg hr]
  exact ⟨_, rfl⟩

/-- The rational number that a decimal stands for. -/
def toRat (d : Decimal) : ℚ := d.coefficient * 10 ^ d.exponent

/-- A coefficient on the grid of index `i`, counted in units. -/
theorem grid_ratio (c i : Nat) :
    (c : ℚ) * 10 ^ ((i : Int) - 1074) * unitsInOne = ((c * 10 ^ i : Nat) : ℚ) / stepsInUnit := by
  have hsplit (k : Nat) (e : Int) (he : e = k) : (c : ℚ) * 10 ^ ((i : Int) - e) * (2 ^ k : Nat)
      = ((c * 10 ^ i : Nat) : ℚ) / (5 ^ k : Nat) := by
    have hten : (10 : ℚ) ^ k = 2 ^ k * 5 ^ k := by
      rw [← mul_pow]
      norm_num
    rw [he, zpow_sub₀ (by norm_num), zpow_natCast, zpow_natCast, hten]
    push_cast
    field_simp
  have h := hsplit 1074 1074 rfl
  rw [← unitsInOne_eq, ← stepsInUnit_eq] at h
  exact h

/-- A decimal that reads back as a rank is, as a literal, the number of that rank. -/
theorem ofDecimal_of_readsBack (s : Bool) (r : Rank) {c i : Nat} (h : readsBack r i c = true) :
    Binary64.ofDecimal s c ((i : Int) - 1074) = .finite s r := by
  have hrank : nearestRank (c * 10 ^ i) stepsInUnit = r.val := eq_of_beq h
  rw [Binary64.ofDecimal_eq_ofUnits s stepsInUnit_pos (grid_ratio c i)]
  unfold Binary64.ofUnits
  rw [hrank, Binary64.ofRank_val]

/-- **The shortest decimal, read as a literal, is the number it was made from.** -/
theorem ofDecimal_shortest (tie : Tie) (s : Bool) (r : Rank) :
    Binary64.ofDecimal s (shortest tie r).coefficient (shortest tie r).exponent = .finite s r := by
  by_cases hr : r.val = 0
  · have hzero : r = ⟨0, by decide⟩ := Fin.ext hr
    rw [hzero]
    rfl
  · obtain ⟨i, hi⟩ := shortest_eq_searchFrom tie hr
    obtain ⟨j, hexp, hback⟩ := readsBack_searchFrom tie (readsBack_finest r.val) i
    rw [hi, hexp]
    exact ofDecimal_of_readsBack s r hback

/-- Only zero has the coefficient zero, and it is written without an exponent. -/
theorem exponent_shortest_of_coefficient (tie : Tie) (r : Rank)
    (h : (shortest tie r).coefficient = 0) : (shortest tie r).exponent = 0 := by
  have hback := ofDecimal_shortest tie false r
  rw [h] at hback
  have hr : r.val = 0 := by
    have := (Binary64.finite.inj hback).2
    rw [← this]
  unfold shortest
  rw [if_pos hr]

end Planar.Decimal
