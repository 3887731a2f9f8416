/-
Repairing settles a vector.

A repaired component is finite whatever it was and whatever was given to replace it: a
finite component stays, a default is taken only if it is finite, and what is taken
otherwise is the positive zero (`repairComponent_settles`).  That is all that is needed.
The axes are repaired one after the other and each notes on its own, so the notes of a
vector are those on `x` followed by those on `y`; and a vector of finite components is
left as it is and nothing is noted (`repair_of_isFinite`), so after one repair no number
of further ones has anything to do (`repairs_of_isFinite`).

Nothing was asked of the vector that is repaired.  So repairing whatever was read, from a
text or from a JSON value, gives a finite vector.
-/
import Planar.Proofs.Vec.Spelling
import Planar.Vec.Json
import Planar.Vec.Text

namespace Planar.Vec

/-! ### One component -/

/-- What takes the place `r` of a component `c`, given the default for its axis. -/
structure Settles (c : Binary64) (default : Option Binary64) (r : Binary64) : Prop where
  isFinite : r.isFinite = true
  kept : c.isFinite = true → r = c
  byDefault : c.isFinite = false → ∀ d, default = some d → d.isFinite = true → r = d
  byZero : c.isFinite = false → (∀ d, default = some d → d.isFinite = false) → r = .zero false

/-- The note on a component, if it was replaced. -/
def noteIfReplaced (axis : Axis) (c r : Binary64) : List Note :=
  if c.isFinite then [] else [.repaired axis c r]

theorem replacement_of_isFinite {d : Binary64} (h : d.isFinite = true) :
    replacement (some d) = d := by
  unfold replacement
  rw [Option.filter_some_pos h, Option.getD_some]

theorem replacement_of_forall {default : Option Binary64}
    (h : ∀ d, default = some d → d.isFinite = false) : replacement default = .zero false := by
  have hnone : default.filter Binary64.isFinite = none := by
    rw [Option.filter_eq_none_iff]
    intro d hd
    rw [h d hd]
    exact Bool.false_ne_true
  unfold replacement
  rw [hnone, Option.getD_none]
  decide +kernel

/-- What replaces a component is finite, also if the default is not. -/
theorem isFinite_replacement (default : Option Binary64) :
    (replacement default).isFinite = true := by
  by_cases h : ∃ d, default = some d ∧ d.isFinite = true
  · obtain ⟨d, rfl, hd⟩ := h
    rw [replacement_of_isFinite hd]
    exact hd
  · rw [replacement_of_forall fun d hd => Bool.eq_false_iff.mpr fun hfinite => h ⟨d, hd, hfinite⟩]
    rfl

theorem repairComponent_of_isFinite (axis : Axis) {c : Binary64} (h : c.isFinite = true)
    (default : Option Binary64) : repairComponent axis c default = pure c := if_pos h

theorem repairComponent_of_not_isFinite (axis : Axis) {c : Binary64} (h : c.isFinite = false)
    (default : Option Binary64) : repairComponent axis c default
      = .noting (.repaired axis c (replacement default)) (replacement default) :=
  if_neg (by rw [h]; exact Bool.false_ne_true)

/-- **A repaired component is finite, and it is noted exactly if it was not.** -/
theorem repairComponent_settles (axis : Axis) (c : Binary64) (default : Option Binary64) :
    Settles c default (repairComponent axis c default).value ∧
      (repairComponent axis c default).notes
        = noteIfReplaced axis c (repairComponent axis c default).value := by
  cases hc : c.isFinite with
  | true =>
      rw [repairComponent_of_isFinite axis hc]
      refine ⟨⟨hc, fun _ => rfl, ?_, ?_⟩, ?_⟩
      · exact fun hnot => absurd (hc.symm.trans hnot) (by decide)
      · exact fun hnot => absurd (hc.symm.trans hnot) (by decide)
      · exact (if_pos hc).symm
  | false =>
      rw [repairComponent_of_not_isFinite axis hc]
      refine ⟨⟨isFinite_replacement default, ?_, ?_, ?_⟩, ?_⟩
      · exact fun hyes => absurd (hc.symm.trans hyes) (by decide)
      · rintro - d rfl hd
        exact replacement_of_isFinite hd
      · exact fun _ hbad => replacement_of_forall hbad
      · exact (if_neg (by rw [hc]; exact Bool.false_ne_true)).symm

/-! ### One vector -/

theorem notes_repair (v : Vec) (dx dy : Option Binary64) : (v.repair dx dy).notes
    = (repairComponent .x v.x dx).notes ++ (repairComponent .y v.y dy).notes :=
  congrArg ((repairComponent .x v.x dx).notes ++ ·) (List.append_nil _)

theorem isFinite_repair (v : Vec) (dx dy : Option Binary64) :
    (v.repair dx dy).value.isFinite = true := by
  have hx := (repairComponent_settles .x v.x dx).1.isFinite
  have hy := (repairComponent_settles .y v.y dy).1.isFinite
  exact Bool.and_eq_true_iff.mpr ⟨hx, hy⟩

/-- How many components are not finite. -/
def brokenCount (v : Vec) : Nat := (!v.x.isFinite).toNat + (!v.y.isFinite).toNat

/-- Each component settled, and one note for each that was replaced, the note on `x` first,
and no others. -/
structure Repairs (v : Vec) (dx dy : Option Binary64) (r : Traced Vec) : Prop where
  x : Settles v.x dx r.value.x
  y : Settles v.y dy r.value.y
  notes : r.notes = noteIfReplaced .x v.x r.value.x ++ noteIfReplaced .y v.y r.value.y
  count : r.notes.length = v.brokenCount
  level : ∀ n ∈ r.notes, n.level = .debug

theorem repairs_repair (v : Vec) (dx dy : Option Binary64) :
    Repairs v dx dy (v.repair dx dy) := by
  obtain ⟨hx, hnx⟩ := repairComponent_settles .x v.x dx
  obtain ⟨hy, hny⟩ := repairComponent_settles .y v.y dy
  have hnotes := notes_repair v dx dy
  rw [hnx, hny] at hnotes
  refine ⟨hx, hy, hnotes, ?_, ?_⟩
  · rw [hnotes]
    unfold noteIfReplaced brokenCount
    cases v.x.isFinite <;> cases v.y.isFinite <;> rfl
  · intro n hn
    rw [hnotes] at hn
    unfold noteIfReplaced at hn
    cases hvx : v.x.isFinite <;> cases hvy : v.y.isFinite <;> simp [hvx, hvy] at hn
    · rcases hn with rfl | rfl <;> rfl
    · rw [hn]
      rfl
    · rw [hn]
      rfl

/-! ### Further repairs -/

/-- A finite vector is left as it is, and nothing is noted. -/
theorem repair_of_isFinite {w : Vec} (h : w.isFinite = true) (dx dy : Option Binary64) :
    w.repair dx dy = pure w := by
  obtain ⟨hx, hy⟩ := Bool.and_eq_true_iff.mp h
  unfold repair
  rw [repairComponent_of_isFinite .x hx, repairComponent_of_isFinite .y hy]
  rfl

/-- Repairs in a row, each with defaults of its own. -/
def repairs (defaults : List (Option Binary64 × Option Binary64)) (v : Vec) : Traced Vec :=
  defaults.foldlM (fun w d => w.repair d.1 d.2) v

theorem repairs_of_isFinite (defaults : List (Option Binary64 × Option Binary64)) {w : Vec}
    (h : w.isFinite = true) : repairs defaults w = pure w := by
  induction defaults with
  | nil => rfl
  | cons d rest ih =>
      unfold repairs at *
      rw [List.foldlM_cons, repair_of_isFinite h, pure_bind, ih]

/-- **A repaired vector is finite and stays as it is.**  Finite components are kept, every
other one becomes its axis's default if that is finite and the positive zero if not, and
each replacement is noted, `x` before `y`.  Further repairs with any defaults change nothing
and note nothing.  So whatever was read from a text or a JSON value is finite after a
repair. -/
theorem repair_settles (dx dy : Option Binary64) :
    (∀ v : Vec, Repairs v dx dy (v.repair dx dy) ∧ (v.repair dx dy).value.isFinite = true ∧
      ∀ more, repairs more (v.repair dx dy).value = pure (v.repair dx dy).value) ∧
    (∀ s : String, (ofText s >>= fun v => v.repair dx dy).value.isFinite = true) ∧
    ∀ j : Json, (ofJson j >>= fun v => v.repair dx dy).value.isFinite = true := by
  refine ⟨fun v => ?_, fun s => isFinite_repair (ofText s).value dx dy,
    fun j => isFinite_repair (ofJson j).value dx dy⟩
  exact ⟨repairs_repair v dx dy, isFinite_repair v dx dy,
    fun more => repairs_of_isFinite more (isFinite_repair v dx dy)⟩

/-- Two broken components, a default that is of no use and one that is a negative zero. -/
theorem repair_settles_broken :
    Repairs ⟨.nan, .infinite true⟩ (some (.infinite false)) (some (-0.0))
      (repair ⟨.nan, .infinite true⟩ (some (.infinite false)) (some (-0.0))) ∧
    (repair ⟨.nan, .infinite true⟩ (some (.infinite false)) (some (-0.0))).value
      = ⟨0.0, -0.0⟩ ∧
    (repair ⟨.nan, .infinite true⟩ (some (.infinite false)) (some (-0.0))).notes.map Note.line
      = ["DEBUG repair: x = NaN replaced with 0", "DEBUG repair: y = -inf replaced with -0"] := by
  have hrepairs := ((repair_settles (some (.infinite false)) (some (-0.0))).1
    ⟨.nan, .infinite true⟩).1
  exact ⟨hrepairs, by decide +kernel, by decide +kernel⟩

end Planar.Vec
