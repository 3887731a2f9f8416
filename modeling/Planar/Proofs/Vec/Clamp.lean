/-
Clamping with bounds that nobody checked.

A component is raised to the lower bound and then lowered to the upper one, each on one
comparison, and a comparison with NaN is false.  So there are three cases, and which one it
is says where the component and the bounds lie (`clampComponent_cases`): the upper bound,
the lower bound, or the component as it was.  What a clamped component is, is read off these
cases, for NaN and for bounds in the wrong order too.

Raising keeps the order of components, and so does lowering (`clampComponent_mono`).  With
that, a component past a bound ends where the bound does, and so wider bounds before
narrower ones make no difference (`clampComponent_narrower`).  The two numbers can be zeros
of different signs, because bounds that are equal as numbers can be.

The edit in place goes from axis to axis, both lower bounds first, and yet neither axis
sees the other: it leaves what the copying form makes of each axis by itself
(`Edit.run_clamp`).
-/
import Planar.Proofs.Binary64.Order
import Planar.Proofs.Vec.Spelling

namespace Planar.Vec

open Binary64 (numLt numLe numEq numLt_iff_place numLe_iff_place numLe_self numEq_self
  numLe_of_not_numLt not_numLt_of_numLe numLe_trans numEq_of_numLe)

/-! ### One component -/

section Component

variable {c d lo hi lo' hi' : Binary64}

/-- **A clamped component is the upper bound, the lower one or the component itself**, and
when it is which. -/
theorem clampComponent_cases (c lo hi : Binary64) :
    (clampComponent c lo hi = hi ∧ (numLt c lo = true ∧ numLt hi lo = true ∨ numLt hi c = true)) ∨
    (clampComponent c lo hi = lo ∧ numLt c lo = true ∧ ¬ numLt hi lo = true) ∨
    (clampComponent c lo hi = c ∧ ¬ numLt c lo = true ∧ ¬ numLt hi c = true) := by
  unfold clampComponent
  by_cases hraise : numLt c lo = true
  · by_cases hlower : numLt hi lo = true
    · exact Or.inl ⟨by simp [hraise, hlower], Or.inl ⟨hraise, hlower⟩⟩
    · exact Or.inr (Or.inl ⟨by simp [hraise, hlower], hraise, hlower⟩)
  · by_cases hlower : numLt hi c = true
    · exact Or.inl ⟨by simp [hraise, hlower], Or.inr hlower⟩
    · exact Or.inr (Or.inr ⟨by simp [hraise, hlower], hraise, hlower⟩)

theorem clampComponent_nan (lo hi : Binary64) : clampComponent .nan lo hi = .nan := by
  cases lo <;> cases hi <;> rfl

/-- Without a lower bound, only the upper one is looked at. -/
theorem clampComponent_nan_lo (c hi : Binary64) :
    clampComponent c .nan hi = if numLt hi c then hi else c := by
  cases c <;> rfl

/-- Without an upper bound, only the lower one is looked at. -/
theorem clampComponent_nan_hi (c lo : Binary64) :
    clampComponent c lo .nan = if numLt c lo then lo else c := rfl

/-- Bounds in order hold the component between them. -/
theorem clampComponent_between (hc : c ≠ .nan) (h : numLe lo hi = true) :
    numLe lo (clampComponent c lo hi) = true ∧ numLe (clampComponent c lo hi) hi = true := by
  obtain ⟨hlo, hhi, -⟩ := numLe_iff_place.mp h
  rcases clampComponent_cases c lo hi with ⟨heq, -⟩ | ⟨heq, -⟩ | ⟨heq, hraise, hlower⟩ <;> rw [heq]
  · exact ⟨h, numLe_self hhi⟩
  · exact ⟨numLe_self hlo, h⟩
  · exact ⟨numLe_of_not_numLt hc hlo hraise, numLe_of_not_numLt hhi hc hlower⟩

/-- What is between the bounds already is not touched. -/
theorem clampComponent_of_between (hlo : numLe lo c = true) (hhi : numLe c hi = true) :
    clampComponent c lo hi = c := by
  have hraise := not_numLt_of_numLe hlo
  have hlower := not_numLt_of_numLe hhi
  rcases clampComponent_cases c lo hi with ⟨-, ⟨hlt, -⟩ | hlt⟩ | ⟨-, hlt, -⟩ | ⟨heq, -⟩
  · exact absurd hlt hraise
  · exact absurd hlt hlower
  · exact absurd hlt hraise
  · exact heq

/-- Of bounds in the wrong order only the upper one is left. -/
theorem clampComponent_of_inverted (hc : c ≠ .nan) (h : numLt hi lo = true) :
    clampComponent c lo hi = hi := by
  obtain ⟨hhi, hlo, -⟩ := numLt_iff_place.mp h
  rcases clampComponent_cases c lo hi with ⟨heq, -⟩ | ⟨-, -, hnot⟩ | ⟨-, hraise, hlower⟩
  · exact heq
  · exact absurd h hnot
  · have habove := numLe_of_not_numLt hc hlo hraise
    have hbelow := numLe_of_not_numLt hhi hc hlower
    exact absurd h (not_numLt_of_numLe (numLe_trans habove hbelow))

/-- A clamped component is clamped to itself. -/
theorem clampComponent_idem (c lo hi : Binary64) :
    clampComponent (clampComponent c lo hi) lo hi = clampComponent c lo hi := by
  rcases clampComponent_cases c lo hi with ⟨heq, -⟩ | ⟨heq, -, hlower⟩ | ⟨heq, -⟩ <;> rw [heq]
  · -- The upper bound is raised if it is the lesser one, and then lowered to itself again.
    rcases clampComponent_cases hi lo hi with ⟨h, -⟩ | ⟨-, hlt, hnot⟩ | ⟨h, -⟩
    · exact h
    · exact absurd hlt hnot
    · exact h
  · rcases clampComponent_cases lo lo hi with ⟨-, ⟨-, hlt⟩ | hlt⟩ | ⟨h, -⟩ | ⟨h, -⟩
    · exact absurd hlt hlower
    · exact absurd hlt hlower
    · exact h
    · exact h
  · exact heq

/-! ### Order -/

theorem raised_mono (h : numLe c d = true) (lo : Binary64) :
    numLe (if numLt c lo then lo else c) (if numLt d lo then lo else d) = true := by
  obtain ⟨-, hd, -⟩ := numLe_iff_place.mp h
  by_cases hdlo : numLt d lo = true
  · rw [if_pos hdlo, if_pos (Binary64.numLt_of_numLe_of_numLt h hdlo)]
    exact numLe_self (numLt_iff_place.mp hdlo).2.1
  · by_cases hclo : numLt c lo = true
    · rw [if_neg hdlo, if_pos hclo]
      exact numLe_of_not_numLt hd (numLt_iff_place.mp hclo).2.1 hdlo
    · rw [if_neg hdlo, if_neg hclo]
      exact h

theorem lowered_mono (h : numLe c d = true) (hi : Binary64) :
    numLe (if numLt hi c then hi else c) (if numLt hi d then hi else d) = true := by
  obtain ⟨hc, -, -⟩ := numLe_iff_place.mp h
  by_cases hhic : numLt hi c = true
  · rw [if_pos hhic, if_pos (Binary64.numLt_of_numLt_of_numLe hhic h)]
    exact numLe_self (numLt_iff_place.mp hhic).1
  · by_cases hhid : numLt hi d = true
    · rw [if_neg hhic, if_pos hhid]
      exact numLe_of_not_numLt (numLt_iff_place.mp hhid).1 hc hhic
    · rw [if_neg hhic, if_neg hhid]
      exact h

/-- Clamping keeps the order of components, whatever the bounds. -/
theorem clampComponent_mono (h : numLe c d = true) (lo hi : Binary64) :
    numLe (clampComponent c lo hi) (clampComponent d lo hi) = true :=
  lowered_mono (raised_mono h lo) hi

/-- What lies past the upper bound ends there. -/
theorem clampComponent_of_above (h : numLe lo hi = true) (hc : numLe hi c = true) :
    numEq (clampComponent c lo hi) hi = true := by
  obtain ⟨hhi, hnan, -⟩ := numLe_iff_place.mp hc
  have hmono := clampComponent_mono hc lo hi
  rw [clampComponent_of_between h (numLe_self hhi)] at hmono
  exact numEq_of_numLe (clampComponent_between hnan h).2 hmono

/-- What lies past the lower bound ends there. -/
theorem clampComponent_of_below (h : numLe lo hi = true) (hc : numLe c lo = true) :
    numEq (clampComponent c lo hi) lo = true := by
  obtain ⟨hnan, hlo, -⟩ := numLe_iff_place.mp hc
  have hmono := clampComponent_mono hc lo hi
  rw [clampComponent_of_between (numLe_self hlo) h] at hmono
  exact numEq_of_numLe hmono (clampComponent_between hnan h).1

/-- Behind wider bounds, narrower ones give the same number as by themselves. -/
theorem clampComponent_narrower (hc : c ≠ .nan) (hlo : numLe lo lo' = true)
    (h : numLe lo' hi' = true) (hhi : numLe hi' hi = true) :
    numEq (clampComponent (clampComponent c lo hi) lo' hi') (clampComponent c lo' hi') = true := by
  have hwide := numLe_trans hlo (numLe_trans h hhi)
  rcases clampComponent_cases c lo hi with ⟨heq, ⟨-, hlt⟩ | hlt⟩ | ⟨heq, hlt, -⟩ | ⟨heq, -⟩ <;>
    rw [heq]
  · exact absurd hlt (not_numLt_of_numLe hwide)
  · exact Binary64.numEq_trans_right (clampComponent_of_above h hhi)
      (clampComponent_of_above h (numLe_trans hhi (Binary64.numLe_of_numLt hlt)))
  · exact Binary64.numEq_trans_right (clampComponent_of_below h hlo)
      (clampComponent_of_below h (numLe_trans (Binary64.numLe_of_numLt hlt) hlo))
  · exact numEq_self (numLe_iff_place.mp (clampComponent_mono (numLe_self hc) lo' hi')).1

end Component

/-! ### One vector -/

/-- The component on an axis. -/
def component (v : Vec) : Axis → Binary64
  | .x => v.x
  | .y => v.y

theorem component_clamp (v lo hi : Vec) (axis : Axis) : (v.clamp lo hi).component axis
    = clampComponent (v.component axis) (lo.component axis) (hi.component axis) := by
  cases axis <;> rfl

/-- What clamping makes of a component `c`, given the bounds of its axis.  A bound that is
NaN is as good as none. -/
structure Clamps (c lo hi r : Binary64) : Prop where
  nan : c = .nan → r = .nan
  nan_lo : lo = .nan → r = if numLt hi c then hi else c
  nan_hi : hi = .nan → r = if numLt c lo then lo else c
  between : c ≠ .nan → numLe lo hi = true → numLe lo r = true ∧ numLe r hi = true
  kept : numLe lo c = true → numLe c hi = true → r = c
  inverted : c ≠ .nan → numLt hi lo = true → r = hi

theorem clamps_clampComponent (c lo hi : Binary64) : Clamps c lo hi (clampComponent c lo hi) where
  nan h := h ▸ clampComponent_nan lo hi
  nan_lo h := h ▸ clampComponent_nan_lo c hi
  nan_hi h := h ▸ clampComponent_nan_hi c lo
  between := clampComponent_between
  kept := clampComponent_of_between
  inverted := clampComponent_of_inverted

/-- **The laws of clamping, with bounds that nobody checked.**  Each axis is clamped by its
own bounds and sees nothing of the other, in place and as a copy; bounds in order hold the
component, bounds in the wrong order leave the upper one, and one that is NaN does nothing.
A second clamping changes nothing, the order of components is kept, and wider bounds before
narrower ones make no difference to the number. -/
theorem clamp_laws (v lo hi : Vec) :
    (Edit.clamp lo hi).run v = pure ((), v.clamp lo hi) ∧
    (v.clamp lo hi).clamp lo hi = v.clamp lo hi ∧
    ∀ axis : Axis,
      Clamps (v.component axis) (lo.component axis) (hi.component axis)
        ((v.clamp lo hi).component axis) ∧
      (∀ w lo' hi' : Vec, w.component axis = v.component axis →
        lo'.component axis = lo.component axis → hi'.component axis = hi.component axis →
        (w.clamp lo' hi').component axis = (v.clamp lo hi).component axis) ∧
      (∀ w : Vec, numLe (v.component axis) (w.component axis) = true →
        numLe ((v.clamp lo hi).component axis) ((w.clamp lo hi).component axis) = true) ∧
      ∀ lo' hi' : Vec, v.component axis ≠ .nan →
        numLe (lo.component axis) (lo'.component axis) = true →
        numLe (lo'.component axis) (hi'.component axis) = true →
        numLe (hi'.component axis) (hi.component axis) = true →
        numEq (((v.clamp lo hi).clamp lo' hi').component axis)
          ((v.clamp lo' hi').component axis) = true := by
  refine ⟨Edit.run_clamp lo hi v, ?_, fun axis => ⟨?_, ?_, ?_, ?_⟩⟩
  · exact congrArg₂ Vec.mk (clampComponent_idem _ _ _) (clampComponent_idem _ _ _)
  · rw [component_clamp]
    exact clamps_clampComponent _ _ _
  · intro w lo' hi' hw hlo hhi
    rw [component_clamp, component_clamp, hw, hlo, hhi]
  · intro w hle
    rw [component_clamp, component_clamp]
    exact clampComponent_mono hle _ _
  · intro lo' hi' hv hlo h hhi
    rw [component_clamp, component_clamp, component_clamp]
    exact clampComponent_narrower hv hlo h hhi

/-- Bounds on `x` that differ in nothing but the signs of zeros, and bounds on `y` in the
wrong order. -/
theorem clamp_laws_zeros :
    ((7.0 : Binary64) ≠ .nan ∧ numLt 1.0 3.0 = true ∧
      (clamp ⟨5e-324, 7.0⟩ ⟨-0.0, 3.0⟩ ⟨0.0, 1.0⟩).y = 1.0) ∧
    (numLe 5e-324 2.0 = true ∧ numLe (clamp ⟨5e-324, 7.0⟩ ⟨-0.0, 3.0⟩ ⟨0.0, 1.0⟩).x
      (clamp ⟨2.0, .nan⟩ ⟨-0.0, 3.0⟩ ⟨0.0, 1.0⟩).x = true) ∧
    ((5e-324 : Binary64) ≠ .nan ∧ numLe (-0.0) 0.0 = true ∧ numLe 0.0 (-0.0) = true ∧
      numEq ((clamp ⟨5e-324, 7.0⟩ ⟨-0.0, 3.0⟩ ⟨0.0, 1.0⟩).clamp ⟨0.0, .nan⟩ ⟨-0.0, .nan⟩).x
        (clamp ⟨5e-324, 7.0⟩ ⟨0.0, .nan⟩ ⟨-0.0, .nan⟩).x = true) ∧
    ((clamp ⟨5e-324, 7.0⟩ ⟨-0.0, 3.0⟩ ⟨0.0, 1.0⟩).clamp ⟨0.0, .nan⟩ ⟨-0.0, .nan⟩).x = 0.0 ∧
    (clamp ⟨5e-324, 7.0⟩ ⟨0.0, .nan⟩ ⟨-0.0, .nan⟩).x = -0.0 := by
  have hseven : (7.0 : Binary64) ≠ .nan := by decide +kernel
  have hinverted : numLt 1.0 3.0 = true := by decide +kernel
  have hle : numLe 5e-324 2.0 = true := by decide +kernel
  have hleast : (5e-324 : Binary64) ≠ .nan := by decide +kernel
  have hzeros : numLe (-0.0) 0.0 = true ∧ numLe 0.0 (-0.0) = true := by decide +kernel
  obtain ⟨-, -, hlaws⟩ := clamp_laws ⟨5e-324, 7.0⟩ ⟨-0.0, 3.0⟩ ⟨0.0, 1.0⟩
  obtain ⟨-, -, hmono, hnarrower⟩ := hlaws .x
  refine ⟨⟨hseven, hinverted, (hlaws .y).1.inverted hseven hinverted⟩,
    ⟨hle, hmono ⟨2.0, .nan⟩ hle⟩, ⟨hleast, hzeros.1, hzeros.2, ?_⟩, ?_⟩
  · exact hnarrower ⟨0.0, .nan⟩ ⟨-0.0, .nan⟩ hleast hzeros.1 hzeros.2 hzeros.1
  · decide +kernel

end Planar.Vec
