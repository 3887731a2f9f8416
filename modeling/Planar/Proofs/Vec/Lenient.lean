/-
The lenient reader of JSON beside the strict one.

The lenient reader works on a value, and of an array or object it looks at two parts
only (`Json.components?`): the first two items, or the last value of each of the two
keys.  What it makes of them is given here by one equation (`ofJson_eq_readBoth`).

The strict reader never sees a value.  But a text that has a value is spelled by it
token for token, so what the strict reader accepts can be read off the value: its
components are the only values of their keys, hence also the last ones, and they are
numbers, which the lenient reader takes as they are and without a note.
-/
import Planar.Proofs.Json.Number
import Planar.Proofs.Vec.Strict
import Planar.Vec.Json

namespace Planar

open Json (Number Scalar valuesAt)

/-- The parts of an array or object that a vector is read from. -/
def Json.components? : Json → Option (Option Json × Option Json)
  | .scalar _ => none
  | .array items => some (items[0]?, items[1]?)
  | .object members => some ((valuesAt "x" members).getLast?, (valuesAt "y" members).getLast?)

namespace Vec

/-- The number that a part is read as: zero if it is missing, NaN if it is not a number. -/
def componentValue : Option Json → Binary64
  | none => 0.0
  | some v => (v.number?.map Number.toBinary64).getD .nan

/-- The notes on a part: one if it is there and not a number. -/
def componentNotes : Option Json → List Note
  | none => []
  | some v => if v.number?.isSome then [] else [.notNumeric v]

/-- The vector of two parts, with the notes on them. -/
def readBoth (x y : Option Json) : Traced Vec :=
  ⟨⟨componentValue x, componentValue y⟩, componentNotes x ++ componentNotes y⟩

theorem readComponent_eq (v : Json) :
    readComponent v = ⟨componentValue (some v), componentNotes (some v)⟩ := by
  simp only [readComponent, componentValue, componentNotes]
  cases v.number? <;> rfl

theorem ofComponents_eq (x y : Option Json) : ofComponents x y = readBoth x y := by
  have hoptional (o : Option Json) : (readOptional o).value.getD 0.0 = componentValue o ∧
      (readOptional o).notes = componentNotes o := by
    cases o with
    | none => exact ⟨rfl, rfl⟩
    | some v =>
        have hread : readOptional (some v) = some <$> readComponent v := rfl
        rw [hread, readComponent_eq]
        exact ⟨rfl, List.append_nil _⟩
  obtain ⟨hx, hnx⟩ := hoptional x
  obtain ⟨hy, hny⟩ := hoptional y
  have hnotes : (ofComponents x y).notes
      = (readOptional x).notes ++ ((readOptional y).notes ++ []) := rfl
  have hvalue : (ofComponents x y).value
      = ⟨(readOptional x).value.getD 0.0, (readOptional y).value.getD 0.0⟩ := rfl
  rw [hnx, hny, List.append_nil] at hnotes
  rw [hx, hy] at hvalue
  unfold readBoth
  rw [← hnotes, ← hvalue]

/-- **A vector is read from the two parts and from nothing else.** -/
theorem ofJson_eq_readBoth {j : Json} {x y : Option Json} (h : j.components? = some (x, y)) :
    ofJson j = readBoth x y := by
  cases j with
  | scalar s => cases h
  | array items =>
      cases h
      exact ofComponents_eq _ _
  | object members =>
      cases h
      rw [ofJson, Json.member?_eq_getLast?, Json.member?_eq_getLast?]
      exact ofComponents_eq _ _

theorem readBoth_numbers (m n : Number) :
    readBoth (some (.scalar (.number m))) (some (.scalar (.number n)))
      = pure ⟨m.toBinary64, n.toBinary64⟩ := rfl

/-! ### What the strict reader accepts -/

theorem eq_map_scalar_of_map_toTokens {vs : List Json} (ss : List Scalar)
    (h : vs.map Json.toTokens = ss.map fun s => [.scalar s]) : vs = ss.map .scalar := by
  induction vs generalizing ss with
  | nil =>
      cases ss with
      | nil => rfl
      | cons s ss => cases h
  | cons v vs ih =>
      cases ss with
      | nil => cases h
      | cons s ss =>
          obtain ⟨hv, hvs⟩ := List.cons.inj h
          rw [Json.eq_scalar_of_toTokens hv, ih ss hvs, List.map_cons]

/-- Where the strict reader succeeds, both parts are there and are numbers. -/
theorem components?_of_ofJsonText {t : String} {j : Json} (h : Json.parse? t.toList = some j)
    {v : Vec} (hread : ofJsonText t = .ok v) : ∃ m n : Number,
      j.components? = some (some (.scalar (.number m)), some (.scalar (.number n))) ∧
      v = ⟨m.toBinary64, n.toBinary64⟩ := by
  unfold ofJsonText at hread
  rw [Json.tokens_of_parse? h] at hread
  cases j with
  | scalar s => exact absurd hread (StrictReader.not_readStrictly_singleton _ v)
  | array items =>
      have hitems := Json.isValue_itemTokens items
      rw [Json.toTokens, StrictReader.readStrictly_array hitems,
        StrictReader.readItems_eq_ok_iff hitems] at hread
      obtain ⟨m, n, htokens, hv⟩ := hread
      rw [Json.itemTokens_eq_map] at htokens
      have heq := eq_map_scalar_of_map_toTokens [.number m, .number n] htokens
      refine ⟨m, n, ?_, hv⟩
      rw [heq]
      rfl
  | object members =>
      rw [Json.toTokens,
        StrictReader.readStrictly_object_eq_ok_iff (Json.isValue_fieldTokens members)] at hread
      obtain ⟨m, n, hx, hy, hv⟩ := hread
      rw [Json.valuesAt_fieldTokens] at hx hy
      have hvx := eq_map_scalar_of_map_toTokens [.number m] hx
      have hvy := eq_map_scalar_of_map_toTokens [.number n] hy
      refine ⟨m, n, ?_, hv⟩
      rw [Json.components?, hvx, hvy]
      rfl

theorem inRange_of_components? {j : Json} (h : j.InRange) {x y : Option Json}
    (hj : j.components? = some (x, y)) {v : Json} (hv : x = some v ∨ y = some v) : v.InRange := by
  cases j with
  | scalar s => cases hj
  | array items =>
      cases hj
      rcases hv with hv | hv <;> exact h.item (List.mem_of_getElem? hv)
  | object members =>
      cases hj
      have hmember {key : String} (hlast : (valuesAt key members).getLast? = some v) :
          v.InRange := by
        obtain ⟨m, hm, rfl⟩ := Json.exists_mem_of_mem_valuesAt (List.mem_of_getLast? hlast)
        exact h.member hm
      rcases hv with hv | hv <;> exact hmember hv

/-- **What the strict reader accepts, the lenient one reads as the same finite vector and
without a note.  It reads any array from its first two items and any object from the last
values of `x` and `y`, and from nothing else, so an array and an object with these parts
in common are read alike, notes included.** -/
theorem ofJson_of_parse? {t : String} {j : Json} (h : Json.parse? t.toList = some j) :
    Json.tokens t.toList = j.toTokens ∧
    (∀ v, ofJsonText t = .ok v → ofJson j = pure v ∧ v.isFinite = true) ∧
    (∀ items, j = .array items → ofJson j = readBoth items[0]? items[1]?) ∧
    (∀ members, j = .object members →
      ofJson j = readBoth (valuesAt "x" members).getLast? (valuesAt "y" members).getLast?) ∧
    ∀ a b rest members, (valuesAt "x" members).getLast? = some a →
      (valuesAt "y" members).getLast? = some b →
      ofJson (.array (a :: b :: rest)) = ofJson (.object members) := by
  refine ⟨Json.tokens_of_parse? h, ?_, ?_, ?_, ?_⟩
  · intro v hread
    obtain ⟨m, n, hparts, rfl⟩ := components?_of_ofJsonText h hread
    have hrange := Json.inRange_of_parse? h
    have hm := (inRange_of_components? hrange hparts (Or.inl rfl)).number.isFinite
    have hn := (inRange_of_components? hrange hparts (Or.inr rfl)).number.isFinite
    rw [ofJson_eq_readBoth hparts, readBoth_numbers]
    exact ⟨rfl, Bool.and_eq_true_iff.mpr ⟨hm, hn⟩⟩
  · rintro items rfl
    exact ofJson_eq_readBoth rfl
  · rintro members rfl
    exact ofJson_eq_readBoth rfl
  · intro a b rest members hx hy
    have hobject : (Json.object members).components? = some (some a, some b) := by
      rw [Json.components?, hx, hy]
    have harray : (Json.array (a :: b :: rest)).components? = some (some a, some b) := rfl
    rw [ofJson_eq_readBoth hobject, ofJson_eq_readBoth harray]

/-- A negative zero, a whole number too long to be kept as such, and a further member
between them. -/
theorem ofJson_of_parse?_between :
    ∃ (t : String) (j : Json),
      t = "\x7b\"y\":18446744073709551616,\"u\":[null],\"x\":-0\x7d" ∧
      Json.parse? t.toList = some j ∧ ofJson j = pure ⟨-0.0, 18446744073709551616.0⟩ := by
  have hsome : (Json.parse?
      "\x7b\"y\":18446744073709551616,\"u\":[null],\"x\":-0\x7d".toList).isSome = true := by
    decide +kernel
  have hread : (ofJsonText "\x7b\"y\":18446744073709551616,\"u\":[null],\"x\":-0\x7d").toOption
      = some ⟨-0.0, 18446744073709551616.0⟩ := by
    decide +kernel
  obtain ⟨j, hj⟩ := Option.isSome_iff_exists.mp hsome
  have hv := (ofJson_of_parse? hj).2.1 _ (StrictReader.eq_ok_of_toOption hread)
  exact ⟨_, j, rfl, hj, hv.1⟩

end Vec

end Planar
