/-
The grammar of JSON texts, and the values that they stand for.

RFC 8259 builds a text from values: a value is a scalar, an array of values, or an
object of keys and values.  Over tokens this is one inductive predicate (`IsValue`).
It has room for the two tokens that are well formed without standing for a scalar, a
number out of range and a string with half of a surrogate pair, and it sets no limit
to the depth.  Only a key has to be a string that can be decoded.

The reader of whole texts is a stack machine, and the grammar is not visible in it.
What connects them is that every state of the machine determines the tokens that were
read on the way to it (`Builder.spelled`): one step adds its token (`spelled_step`),
so a run adds all of its tokens.  A text that has a value is therefore spelled by the
value, token for token (`tokens_of_parse?`), and nothing of the text is lost in it,
not even a repeated key.
-/
import Planar.Json.Document

namespace Planar.Json

/-! ### Values as sequences of tokens -/

/-- Sequences of tokens with commas between them. -/
def separated : List (List Token) → List Token
  | [] => []
  | [ts] => ts
  | ts :: us :: rest => ts ++ .comma :: separated (us :: rest)

def arrayTokens (items : List (List Token)) : List Token :=
  .openArray :: (separated items ++ [.closeArray])

/-- A key, a colon and a value. -/
def memberTokens (m : String × List Token) : List Token :=
  .scalar (.string m.1) :: .colon :: m.2

def objectTokens (members : List (String × List Token)) : List Token :=
  .openObject :: (separated (members.map memberTokens) ++ [.closeObject])

/-- The tokens of one value. -/
inductive IsValue : List Token → Prop
  | scalar (s : Scalar) : IsValue [.scalar s]
  | outOfRange : IsValue [.outOfRange]
  | unpaired : IsValue [.unpaired]
  | array {items : List (List Token)} (h : ∀ ts ∈ items, IsValue ts) : IsValue (arrayTokens items)
  | object {members : List (String × List Token)} (h : ∀ m ∈ members, IsValue m.2) :
      IsValue (objectTokens members)

/-- The tokens of an object with the given members. -/
def IsObject (members : List (String × List Token)) (ts : List Token) : Prop :=
  (∀ m ∈ members, IsValue m.2) ∧ ts = objectTokens members

theorem IsValue.exists_cons {ts : List Token} (h : IsValue ts) :
    ∃ t rest, ts = t :: rest ∧ t ≠ .closeArray := by
  cases h with
  | scalar s => exact ⟨_, [], rfl, by simp⟩
  | outOfRange => exact ⟨_, [], rfl, by simp⟩
  | unpaired => exact ⟨_, [], rfl, by simp⟩
  | array h => exact ⟨_, _, rfl, by simp⟩
  | object h => exact ⟨_, _, rfl, by simp⟩

theorem separated_append_singleton (before : List (List Token)) (ts : List Token) :
    separated (before ++ [ts]) = before.flatMap (· ++ [.comma]) ++ ts := by
  induction before with
  | nil => rfl
  | cons us rest ih =>
      cases rest with
      | nil => simp [separated]
      | cons vs rest =>
          simp only [List.cons_append, separated, List.flatMap_cons] at ih ⊢
          rw [ih]
          simp

theorem mem_separated {t : Token} {ts : List Token} {sequences : List (List Token)}
    (hts : ts ∈ sequences) (ht : t ∈ ts) : t ∈ separated sequences := by
  induction sequences with
  | nil => simp at hts
  | cons us rest ih =>
      cases rest with
      | nil =>
          obtain rfl : ts = us := by simpa using hts
          exact ht
      | cons vs rest =>
          rw [separated, List.mem_append, List.mem_cons]
          rcases List.mem_cons.mp hts with rfl | hmem
          · exact Or.inl ht
          · exact Or.inr (Or.inr (ih hmem))

/-! ### The spelling of a value -/

mutual

/-- The tokens that a value is read from. -/
def toTokens : Json → List Token
  | scalar s => [.scalar s]
  | array items => arrayTokens (itemTokens items)
  | object members => objectTokens (fieldTokens members)

def itemTokens : List Json → List (List Token)
  | [] => []
  | v :: rest => v.toTokens :: itemTokens rest

def fieldTokens : List (String × Json) → List (String × List Token)
  | [] => []
  | (k, v) :: rest => (k, v.toTokens) :: fieldTokens rest

end

theorem itemTokens_eq_map (items : List Json) : itemTokens items = items.map toTokens := by
  induction items with
  | nil => rfl
  | cons v rest ih => rw [itemTokens, ih, List.map_cons]

theorem fieldTokens_eq_map (members : List (String × Json)) :
    fieldTokens members = members.map fun m => (m.1, m.2.toTokens) := by
  induction members with
  | nil => rfl
  | cons m rest ih =>
      obtain ⟨k, v⟩ := m
      rw [fieldTokens, ih, List.map_cons]

mutual

theorem isValue_toTokens : (j : Json) → IsValue j.toTokens
  | scalar s => .scalar s
  | array items => .array (isValue_itemTokens items)
  | object members => .object (isValue_fieldTokens members)

theorem isValue_itemTokens : (items : List Json) → ∀ ts ∈ itemTokens items, IsValue ts
  | [] => by simp [itemTokens]
  | v :: rest => by
      intro ts hts
      rcases List.mem_cons.mp hts with rfl | hmem
      · exact isValue_toTokens v
      · exact isValue_itemTokens rest ts hmem

theorem isValue_fieldTokens :
    (members : List (String × Json)) → ∀ m ∈ fieldTokens members, IsValue m.2
  | [] => by simp [fieldTokens]
  | (k, v) :: rest => by
      intro m hm
      rcases List.mem_cons.mp hm with rfl | hmem
      · exact isValue_toTokens v
      · exact isValue_fieldTokens rest m hmem

end

/-- Only a scalar is spelled by one scalar token. -/
theorem eq_scalar_of_toTokens {j : Json} {s : Scalar} (h : j.toTokens = [.scalar s]) :
    j = scalar s := by
  cases j with
  | scalar t => simpa [toTokens] using h
  | array items => simp [toTokens, arrayTokens] at h
  | object members => simp [toTokens, objectTokens] at h

theorem mem_toTokens_item {t : Token} {items : List Json} {v : Json} (hv : v ∈ items)
    (ht : t ∈ v.toTokens) : t ∈ (array items).toTokens := by
  have hmem : v.toTokens ∈ itemTokens items := by
    rw [itemTokens_eq_map]
    exact List.mem_map_of_mem hv
  have hsep := mem_separated hmem ht
  simp [toTokens, arrayTokens, hsep]

theorem mem_toTokens_member {t : Token} {members : List (String × Json)} {m : String × Json}
    (hm : m ∈ members) (ht : t ∈ m.2.toTokens) : t ∈ (object members).toTokens := by
  have hmem : memberTokens (m.1, m.2.toTokens) ∈ (fieldTokens members).map memberTokens := by
    rw [fieldTokens_eq_map]
    exact List.mem_map_of_mem (List.mem_map_of_mem hm)
  have hsep := mem_separated hmem (t := t) (by simp [memberTokens, ht])
  simp [toTokens, objectTokens, hsep]

/-! ### The values of a key -/

section Keys

variable {α : Type} {key : String}

/-- The values of all members with a key, in order. -/
def valuesAt (key : String) (members : List (String × α)) : List α :=
  (members.filter fun m => m.1 = key).map (·.2)

theorem valuesAt_cons_self {m : String × α} (h : m.1 = key) (rest : List (String × α)) :
    valuesAt key (m :: rest) = m.2 :: valuesAt key rest := by
  simp [valuesAt, h]

theorem valuesAt_cons_of_ne {m : String × α} (h : m.1 ≠ key) (rest : List (String × α)) :
    valuesAt key (m :: rest) = valuesAt key rest := by
  simp [valuesAt, h]

theorem valuesAt_filter {p : String × α → Bool} (h : ∀ m, m.1 = key → p m = true)
    (members : List (String × α)) : valuesAt key (members.filter p) = valuesAt key members := by
  unfold valuesAt
  rw [List.filter_filter]
  congr 1
  refine List.filter_congr fun m _ => ?_
  by_cases hk : m.1 = key
  · simp [hk, h m hk]
  · simp [hk]

theorem exists_mem_of_mem_valuesAt {members : List (String × α)} {a : α}
    (h : a ∈ valuesAt key members) : ∃ m ∈ members, m.2 = a := by
  obtain ⟨m, hm, rfl⟩ := List.mem_map.mp h
  exact ⟨m, (List.mem_filter.mp hm).1, rfl⟩

end Keys

/-- Looking a key up finds its last value. -/
theorem member?_eq_getLast? (key : String) (members : List (String × Json)) :
    member? key members = (valuesAt key members).getLast? := by
  induction members with
  | nil => rfl
  | cons m rest ih =>
      obtain ⟨k, v⟩ := m
      rw [member?, ih]
      by_cases hk : k = key
      · rw [valuesAt_cons_self (m := (k, v)) hk, if_pos hk, List.getLast?_cons]
        cases (valuesAt key rest).getLast? <;> rfl
      · rw [valuesAt_cons_of_ne (m := (k, v)) hk, if_neg hk, Option.or_none]

theorem valuesAt_fieldTokens (key : String) (members : List (String × Json)) :
    valuesAt key (fieldTokens members) = (valuesAt key members).map toTokens := by
  rw [fieldTokens_eq_map]
  simp [valuesAt, List.filter_map, Function.comp_def]

/-! ### What the reader of whole texts has read -/

namespace Builder

/-- Finished items, the last one first, each with a comma behind it. -/
def itemsBefore (before : List Json) : List Token :=
  .openArray :: before.reverse.flatMap fun v => v.toTokens ++ [.comma]

/-- Finished members, the last one first, each with a comma behind it. -/
def membersBefore (before : List (String × Json)) : List Token :=
  .openObject :: before.reverse.flatMap fun m => memberTokens (m.1, m.2.toTokens) ++ [.comma]

/-- The tokens of what is open, the innermost array or object first in the list. -/
def spelledFrames : List Frame → List Token
  | [] => []
  | .items before :: opened => spelledFrames opened ++ itemsBefore before
  | .member before k :: opened =>
    spelledFrames opened ++ membersBefore before ++ [.scalar (.string k), .colon]

/-- The tokens that lead to a state. -/
def spelled : Builder → List Token
  | value opened => spelledFrames opened
  | firstItem opened => spelledFrames opened ++ [.openArray]
  | firstKey opened => spelledFrames opened ++ [.openObject]
  | key before opened => spelledFrames opened ++ membersBefore before
  | colon before k opened => spelledFrames opened ++ membersBefore before ++ [.scalar (.string k)]
  | read v opened => spelledFrames opened ++ v.toTokens

theorem itemsBefore_close (before : List Json) (v : Json) :
    itemsBefore before ++ v.toTokens ++ [.closeArray] = (array (v :: before).reverse).toTokens := by
  rw [toTokens, arrayTokens, itemTokens_eq_map, List.reverse_cons, List.map_append]
  show _ = Token.openArray
    :: (separated (before.reverse.map toTokens ++ [v.toTokens]) ++ [Token.closeArray])
  rw [separated_append_singleton, itemsBefore, List.flatMap_map]
  simp

theorem membersBefore_close (before : List (String × Json)) (k : String) (v : Json) :
    membersBefore before ++ [.scalar (.string k), .colon] ++ v.toTokens ++ [.closeObject]
      = (object ((k, v) :: before).reverse).toTokens := by
  rw [toTokens, objectTokens, fieldTokens_eq_map, List.map_map, List.reverse_cons, List.map_append]
  show _ = Token.openObject
    :: (separated (before.reverse.map (memberTokens ∘ fun m => (m.1, m.2.toTokens))
      ++ [memberTokens (k, v.toTokens)]) ++ [Token.closeObject])
  rw [separated_append_singleton, membersBefore, List.flatMap_map]
  simp [memberTokens]

theorem spelled_beginValue {opened : List Frame} {t : Token} {b : Builder}
    (h : beginValue opened t = some b) : b.spelled = spelledFrames opened ++ [t] := by
  cases t <;>
    simp only [beginValue, reduceCtorEq, Option.some.injEq, Option.ite_none_right_eq_some] at h
  · rw [← h.2]
    rfl
  · rw [← h.2]
    rfl
  · rw [← h]
    rfl

theorem spelled_beginMember {before : List (String × Json)} {opened : List Frame} {t : Token}
    {b : Builder} (h : beginMember before opened t = some b) :
    b.spelled = spelledFrames opened ++ membersBefore before ++ [t] := by
  unfold beginMember at h
  split at h
  · rw [← Option.some.inj h]
    rfl
  · cases h

/-- **One step adds its token.** -/
theorem spelled_step {b b' : Builder} {t : Token} (h : b.step t = some b') :
    b'.spelled = b.spelled ++ [t] := by
  unfold step at h
  split at h
  case h_1 => exact spelled_beginValue h
  -- An array that has just been opened ends, or has a first item.
  case h_2 =>
    cases h
    simp [spelled, toTokens, arrayTokens, itemTokens, separated]
  case h_3 =>
    rw [spelled_beginValue h]
    simp [spelled, spelledFrames, itemsBefore]
  -- An object that has just been opened ends, or has a first key; other keys follow a comma.
  case h_4 =>
    cases h
    simp [spelled, toTokens, objectTokens, fieldTokens, separated]
  case h_5 =>
    rw [spelled_beginMember h]
    simp [spelled, membersBefore]
  case h_6 => exact spelled_beginMember h
  case h_7 =>
    cases h
    simp [spelled, spelledFrames]
  -- A value in an array is followed by a comma or ends the array.
  case h_8 =>
    cases h
    simp [spelled, spelledFrames, itemsBefore]
  case h_9 =>
    cases h
    simp only [spelled, spelledFrames, ← itemsBefore_close, List.append_assoc]
  -- A value in an object likewise.
  case h_10 =>
    cases h
    simp [spelled, spelledFrames, membersBefore, memberTokens]
  case h_11 =>
    cases h
    simp only [spelled, spelledFrames, ← membersBefore_close, List.append_assoc]
  case h_12 => cases h

theorem spelled_run {ts : List Token} {b b' : Builder} (h : ts.foldlM step b = some b') :
    b'.spelled = b.spelled ++ ts := by
  induction ts generalizing b with
  | nil =>
      obtain rfl : b = b' := by simpa using h
      simp
  | cons t ts ih =>
      rw [List.foldlM_cons, Option.bind_eq_bind, Option.bind_eq_some_iff] at h
      obtain ⟨c, hstep, hrun⟩ := h
      rw [ih hrun, spelled_step hstep]
      simp

end Builder

theorem eq_toTokens_of_ofTokens? {ts : List Token} {j : Json} (h : ofTokens? ts = some j) :
    ts = j.toTokens := by
  obtain ⟨b, hrun, hresult⟩ := Option.bind_eq_some_iff.mp h
  have hspelled := Builder.spelled_run hrun
  unfold Builder.result? at hresult
  split at hresult
  · cases hresult
    simpa [Builder.spelled, Builder.spelledFrames] using hspelled.symm
  · cases hresult

/-- **A text that has a value is spelled by it, token for token.** -/
theorem tokens_of_parse? {cs : List Char} {j : Json} (h : parse? cs = some j) :
    tokens cs = j.toTokens :=
  eq_toTokens_of_ofTokens? h

theorem isValue_of_parse? {cs : List Char} {j : Json} (h : parse? cs = some j) :
    IsValue (tokens cs) := by
  rw [tokens_of_parse? h]
  exact isValue_toTokens j

end Planar.Json
