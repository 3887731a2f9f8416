/-
Every NaN that reading produces has its note.

A lenient reader gives NaN where there is no number, and it says so on the spot.  For
the notes to count the NaNs, NaN must come from nowhere else.  From a text it could
come through a numeral; but what is scanned is a well-formed numeral
(`Numeral.wellFormed_of_scan?`), and none of those stands for NaN
(`Numeral.value_ne_nan`), although it may stand for an infinity.  From a JSON value it
could come through a number; but a JSON number is never NaN, which is where the value
has to be in range, as every value is that was read from a text.

The two components are read one after the other and each notes on its own, so the
notes of a vector are those of `x` followed by those of `y`.
-/
import Planar.Proofs.Vec.Lenient
import Planar.Proofs.Vec.Text

namespace Planar

theorem isNaN_iff {x : Binary64} : x.isNaN = true ↔ x = .nan := by
  cases x <;> simp [Binary64.isNaN]

theorem isNaN_eq_false {x : Binary64} (h : x ≠ .nan) : x.isNaN = false := by
  rw [← Bool.not_eq_true, isNaN_iff]
  exact h

/-- A note if a component is NaN. -/
def noteIfNaN (c : Binary64) (n : Note) : List Note := if c.isNaN then [n] else []

/-- A text gives NaN exactly where it has no number, and then it is noted. -/
theorem notes_readNumber (text : String) :
    (readNumber text).notes = noteIfNaN (readNumber text).value (.noNumber text) := by
  unfold readNumber noteIfNaN
  cases Numeral.scan? (Text.trimStart text.toList) with
  | none => rfl
  | some p =>
      obtain ⟨n, rest⟩ := p
      simp [isNaN_eq_false n.value_ne_nan]

namespace Vec

/-- How many components are NaN. -/
def nanCount (v : Vec) : Nat := v.x.isNaN.toNat + v.y.isNaN.toNat

/-- What was read has one note for each component that is NaN, the note on `x` first, and
no others. -/
structure TracesNaN (r : Traced Vec) (onX onY : Note) : Prop where
  notes : r.notes = noteIfNaN r.value.x onX ++ noteIfNaN r.value.y onY
  count : r.notes.length = r.value.nanCount
  level : ∀ n ∈ r.notes, n.level = .debug

theorem tracesNaN_of_notes {r : Traced Vec} {onX onY : Note}
    (h : r.notes = noteIfNaN r.value.x onX ++ noteIfNaN r.value.y onY)
    (hx : onX.level = .debug) (hy : onY.level = .debug) : TracesNaN r onX onY := by
  refine ⟨h, ?_, ?_⟩
  · rw [h]
    unfold noteIfNaN nanCount
    cases r.value.x.isNaN <;> cases r.value.y.isNaN <;> rfl
  · have hmem {c : Binary64} {m n : Note} (hn : n ∈ noteIfNaN c m) : n = m := by
      unfold noteIfNaN at hn
      split at hn
      · exact List.mem_singleton.mp hn
      · cases hn
    intro n hn
    rw [h, List.mem_append] at hn
    rcases hn with hn | hn
    · rw [hmem hn, hx]
    · rw [hmem hn, hy]

/-! ### Texts -/

/-- What stands before the first comma. -/
def firstPart (s : String) : String := String.ofList (cutAtComma s.toList).1

/-- The note on a second component that is not there or not a number. -/
def noteOnSecond (s : String) : Note :=
  match (cutAtComma s.toList).2 with
  | none => .noSecondComponent s
  | some rest => .noNumber (String.ofList (cutAtComma rest).1)

theorem cutAtComma_eq_none_iff {cs : List Char} : (cutAtComma cs).2 = none ↔ ',' ∉ cs := by
  constructor
  · intro h hmem
    obtain ⟨before, rest, rfl, hbefore⟩ := List.eq_append_cons_of_mem hmem
    rw [cutAtComma_append hbefore] at h
    cases h
  · intro h
    rw [cutAtComma_of_notMem h]

/-- The second component of a text. -/
def readSecond (s : String) : Traced Binary64 :=
  match (cutAtComma s.toList).2 with
  | none => .noting (.noSecondComponent s) .nan
  | some rest => readNumber (String.ofList (cutAtComma rest).1)

theorem ofText_eq (s : String) : ofText s = do
    let x ← readNumber (firstPart s)
    let y ← readSecond s
    return ⟨x, y⟩ := by
  unfold ofText firstPart readSecond
  obtain ⟨first, after⟩ := cutAtComma s.toList
  cases after <;> rfl

theorem notes_readSecond (s : String) :
    (readSecond s).notes = noteIfNaN (readSecond s).value (noteOnSecond s) := by
  unfold readSecond noteOnSecond
  cases (cutAtComma s.toList).2 with
  | none => rfl
  | some rest => exact notes_readNumber _

theorem notes_ofText (s : String) :
    (ofText s).notes = noteIfNaN (ofText s).value.x (.noNumber (firstPart s))
      ++ noteIfNaN (ofText s).value.y (noteOnSecond s) := by
  rw [ofText_eq]
  simp only [Traced.notes_bind, Traced.value_bind, Traced.notes_pure, Traced.value_pure,
    List.append_nil, notes_readNumber, notes_readSecond]

theorem tracesNaN_ofText (s : String) :
    TracesNaN (ofText s) (.noNumber (firstPart s)) (noteOnSecond s) := by
  refine tracesNaN_of_notes (notes_ofText s) rfl ?_
  unfold noteOnSecond
  split <;> rfl

theorem noteOnSecond_eq_iff (s : String) :
    noteOnSecond s = .noSecondComponent s ↔ ',' ∉ s.toList := by
  rw [← cutAtComma_eq_none_iff]
  unfold noteOnSecond
  cases (cutAtComma s.toList).2 <;> simp

theorem y_of_noComma {s : String} (h : ',' ∉ s.toList) : (ofText s).value.y = .nan := by
  rw [ofText_eq]
  simp only [Traced.value_bind, Traced.value_pure, readSecond, cutAtComma_of_notMem h,
    Traced.value_noting]

/-! ### JSON values -/

theorem componentNotes_eq {o : Option Json} (h : ∀ v, o = some v → v.InRange) :
    componentNotes o = noteIfNaN (componentValue o) (.notNumeric (o.getD default)) := by
  cases o with
  | none =>
      have hzero : (0.0 : Binary64).isNaN = false := by decide +kernel
      simp [componentNotes, componentValue, noteIfNaN, hzero]
  | some v =>
      have hrange := h v rfl
      cases hv : v.number? with
      | none => simp [componentNotes, componentValue, noteIfNaN, hv, Binary64.isNaN]
      | some n =>
          have heq : v = .scalar (.number n) := by
            unfold Json.number? at hv
            split at hv <;> cases hv
            rfl
          subst heq
          have hne : n.toBinary64 ≠ .nan := by
            intro hnan
            have hfinite := hrange.number.isFinite
            rw [hnan] at hfinite
            cases hfinite
          simp [componentNotes, componentValue, noteIfNaN, hv, isNaN_eq_false hne]

theorem tracesNaN_ofJson {j : Json} (h : j.InRange) {x y : Option Json}
    (hj : j.components? = some (x, y)) :
    TracesNaN (ofJson j) (.notNumeric (x.getD default)) (.notNumeric (y.getD default)) := by
  refine tracesNaN_of_notes ?_ rfl rfl
  have hx := componentNotes_eq fun v hv => inRange_of_components? h hj (Or.inl hv)
  have hy := componentNotes_eq fun v hv => inRange_of_components? h hj (Or.inr hv)
  rw [ofJson_eq_readBoth hj, readBoth, hx, hy]

/-- **Each NaN that is read has its note, `x` before `y`, and nothing else is noted.**
From a text the note on `y` is that there is no second component exactly if there is no
comma, and no numeral that is scanned is flawed or reads as NaN.  A JSON value without
parts has one note for both; of any other, a part that is missing is zero. -/
theorem notes_trace_nan :
    (∀ s : String, TracesNaN (ofText s) (.noNumber (firstPart s)) (noteOnSecond s) ∧
      (noteOnSecond s = .noSecondComponent s ↔ ',' ∉ s.toList) ∧
      (',' ∉ s.toList → (ofText s).value.y = .nan)) ∧
    (∀ (cs rest : List Char) (n : Numeral), Numeral.scan? cs = some (n, rest) →
      n.WellFormed ∧ n.value ≠ .nan) ∧
    (∀ s : Json.Scalar,
      ofJson (.scalar s) = .noting (.notAVector (.scalar s)) ⟨.nan, .nan⟩) ∧
    ∀ (j : Json) (x y : Option Json), j.InRange → j.components? = some (x, y) →
      TracesNaN (ofJson j) (.notNumeric (x.getD default)) (.notNumeric (y.getD default)) ∧
      (x = none → (ofJson j).value.x = 0.0) ∧ (y = none → (ofJson j).value.y = 0.0) := by
  refine ⟨fun s => ⟨tracesNaN_ofText s, noteOnSecond_eq_iff s, y_of_noComma⟩, ?_, fun s => rfl, ?_⟩
  · intro cs rest n h
    exact ⟨Numeral.wellFormed_of_scan? h, n.value_ne_nan⟩
  · intro j x y hrange hj
    refine ⟨tracesNaN_ofJson hrange hj, ?_, ?_⟩
    · rintro rfl
      rw [ofJson_eq_readBoth hj]
      rfl
    · rintro rfl
      rw [ofJson_eq_readBoth hj]
      rfl

/-- An array of `null` and a number has one note. -/
theorem notes_trace_nan_null :
    ∃ j : Json, j = .array [.scalar .null, .scalar (.number (.integer 5))] ∧ j.InRange ∧
      TracesNaN (ofJson j) (.notNumeric (.scalar .null))
        (.notNumeric (.scalar (.number (.integer 5)))) ∧
      (ofJson j).notes.length = 1 := by
  refine ⟨_, rfl, ?_⟩
  have hrange : (Json.array [.scalar .null, .scalar (.number (.integer 5))]).InRange := by
    intro n hn
    simp [Json.toTokens, Json.arrayTokens, Json.itemTokens, Json.separated] at hn
    subst hn
    exact ⟨by decide, by decide⟩
  have htrace := (notes_trace_nan.2.2.2 _ _ _ hrange rfl).1
  exact ⟨hrange, htrace, rfl⟩

end Vec

end Planar
