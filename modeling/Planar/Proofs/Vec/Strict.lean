/-
What the strict readers accept.

The strict reader is a machine over tokens, and what it has read of an object is only
two components.  Two things have to be seen through it.  A value that it does not want
is passed over by a machine inside the machine, which must come out of the value
exactly where the value ends (`run_skipping`); this is an induction on the grammar, with
any number of brackets open around the value.  And the loop over the members, with its
commas, is a fold of one function over them (`readStrictly_object`): a member that
names a component puts it in place if it is the first one and a number, and is an error
otherwise; any other member changes nothing.

A fold that stops at the second occurrence of a key and at whatever is not a number
succeeds exactly if each of the two keys has one value at the end, and that a number
(`foldlM_readMember_eq_ok_iff`).  Where the members stand among each other, and
whatever else there is between them, does not enter into it.
-/
import Planar.Proofs.Json.Grammar
import Planar.Vec.Strict

namespace Planar

open Json (Token Skip Number IsValue IsObject separated arrayTokens memberTokens objectTokens
  valuesAt)

namespace StrictReader

variable {target : Expected} {s r : StrictReader} {t : Token} {ts us : List Token}

/-- The state after a sequence of tokens. -/
def run (target : Expected) (s : StrictReader) (ts : List Token) : Except ReadError StrictReader :=
  ts.foldlM (step target) s

theorem run_cons_ok (h : step target s t = .ok r) : run target s (t :: ts) = run target r ts := by
  unfold run
  rw [List.foldlM_cons, h]
  rfl

theorem run_cons_error {e : ReadError} (h : step target s t = .error e) :
    run target s (t :: ts) = .error e := by
  unfold run
  rw [List.foldlM_cons, h]
  rfl

theorem run_append : run target s (ts ++ us) = run target s ts >>= (run target · us) := by
  unfold run
  rw [List.foldlM_append]

theorem run_append_ok (h : run target s ts = .ok r) :
    run target s (ts ++ us) = run target r us := by
  rw [run_append, h]
  rfl

theorem bind_eq_ok_iff {α β : Type} {a : Except ReadError α} {f : α → Except ReadError β} {b : β} :
    a >>= f = .ok b ↔ ∃ x, a = .ok x ∧ f x = .ok b := by
  constructor
  · intro h
    cases a with
    | error e => cases h
    | ok x => exact ⟨x, rfl, h⟩
  · rintro ⟨x, rfl, h⟩
    exact h

theorem eq_ok_of_toOption {α : Type} {a : Except ReadError α} {x : α}
    (h : a.toOption = some x) : a = .ok x := by
  cases a with
  | error e => cases h
  | ok y => exact congrArg Except.ok (Option.some.inj h)

/-! ### Passing over a value -/

variable {c : Components} {opened : List Json.Bracket}

/-- Where the reader is while it passes over a value, and right behind it. -/
def passing : Skip → Components → StrictReader
  | .read [], c => afterMember c
  | s, c => skipping s c

theorem step_skipping {k k' : Skip} (h : k.step t = some k') :
    step target (skipping k c) t = .ok (passing k' c) := by
  show skip k c t = _
  unfold skip passing
  rw [h]
  cases k' with
  | read opened => cases opened <;> rfl
  | _ => rfl

/-- An array that has just been opened takes its first item as it takes any other. -/
theorem run_firstItem (h : IsValue ts) :
    run target (skipping (.firstItem opened) c) (ts ++ us)
      = run target (skipping (.value (.array :: opened)) c) (ts ++ us) := by
  obtain ⟨t, rest, rfl, hne⟩ := h.exists_cons
  have hstep : step target (skipping (.firstItem opened) c) t
      = step target (skipping (.value (.array :: opened)) c) t := by
    cases t <;> first | rfl | exact absurd rfl hne
  unfold run
  rw [List.cons_append, List.foldlM_cons, List.foldlM_cons, hstep]

theorem run_skipping_items {items : List (List Token)}
    (h : ∀ ts ∈ items, ∀ opened,
      run target (skipping (.value opened) c) ts = .ok (passing (.read opened) c))
    (hne : items ≠ []) :
    run target (skipping (.value (.array :: opened)) c) (separated items ++ [.closeArray])
      = .ok (passing (.read opened) c) := by
  induction items with
  | nil => exact absurd rfl hne
  | cons ts rest ih =>
      have hts := h ts (by simp) (.array :: opened)
      cases rest with
      | nil =>
          rw [separated, run_append_ok hts]
          exact run_cons_ok (step_skipping rfl)
      | cons us rest =>
          rw [separated, List.append_assoc, run_append_ok hts]
          refine (run_cons_ok (step_skipping rfl)).trans ?_
          exact ih (fun vs hvs => h vs (by simp [hvs])) (by simp)

theorem run_skipping_members {members : List (String × List Token)}
    (h : ∀ m ∈ members, ∀ opened,
      run target (skipping (.value opened) c) m.2 = .ok (passing (.read opened) c))
    (hne : members ≠ []) :
    run target (skipping (.key opened) c)
        (separated (members.map memberTokens) ++ [.closeObject])
      = .ok (passing (.read opened) c) := by
  induction members with
  | nil => exact absurd rfl hne
  | cons m rest ih =>
      have hmember : run target (skipping (.key opened) c) (memberTokens m)
          = .ok (passing (.read (.object :: opened)) c) := by
        refine (run_cons_ok (step_skipping rfl)).trans ?_
        refine (run_cons_ok (step_skipping rfl)).trans ?_
        exact h m (by simp) (.object :: opened)
      cases rest with
      | nil =>
          rw [List.map_singleton, separated, run_append_ok hmember]
          exact run_cons_ok (step_skipping rfl)
      | cons n rest =>
          rw [List.map_cons, List.map_cons, separated, List.append_assoc, run_append_ok hmember]
          refine (run_cons_ok (step_skipping rfl)).trans ?_
          exact ih (fun k hk => h k (by simp [hk])) (by simp)

/-- **A value is passed over to its end and no further.** -/
theorem run_skipping (h : IsValue ts) :
    ∀ opened, run target (skipping (.value opened) c) ts = .ok (passing (.read opened) c) := by
  induction h with
  | scalar s => exact fun opened => run_cons_ok (step_skipping rfl)
  | outOfRange => exact fun opened => run_cons_ok (step_skipping rfl)
  | unpaired => exact fun opened => run_cons_ok (step_skipping rfl)
  | @array items h ih =>
      intro opened
      refine (run_cons_ok (step_skipping rfl)).trans ?_
      cases items with
      | nil => exact run_cons_ok (step_skipping rfl)
      | cons ts rest =>
          have hitems : run target (skipping (.value (.array :: opened)) c)
              (separated (ts :: rest) ++ [.closeArray]) = .ok (passing (.read opened) c) :=
            run_skipping_items ih (by simp)
          cases rest with
          | nil => exact (run_firstItem (h ts (by simp))).trans hitems
          | cons us rest =>
              rw [separated, List.append_assoc] at hitems ⊢
              exact (run_firstItem (h ts (by simp))).trans hitems
  | @object members h ih =>
      intro opened
      refine (run_cons_ok (step_skipping rfl)).trans ?_
      cases members with
      | nil => exact run_cons_ok (step_skipping rfl)
      | cons m rest =>
          have hmembers : run target (skipping (.key opened) c)
              (separated ((m :: rest).map memberTokens) ++ [.closeObject])
                = .ok (passing (.read opened) c) :=
            run_skipping_members ih (by simp)
          -- The first key is taken as any other key is.
          cases rest <;> exact hmembers

/-! ### Reading a component -/

/-- The number that a value is. -/
def readValue : List Token → Except ReadError Binary64
  | [] => throw .malformed
  | t :: _ => readNumber t

theorem readValue_eq_ok_iff (h : IsValue ts) {x : Binary64} :
    readValue ts = .ok x ↔ ∃ n : Number, ts = [.scalar (.number n)] ∧ x = n.toBinary64 := by
  constructor
  · intro hread
    cases h with
    | scalar s =>
        cases s with
        | number n => exact ⟨n, rfl, (Except.ok.inj hread).symm⟩
        | null => cases hread
        | boolean b => cases hread
        | string s => cases hread
    | outOfRange => cases hread
    | unpaired => cases hread
    | array h => cases hread
    | object h => cases hread
  · rintro ⟨n, rfl, rfl⟩
    rfl

/-- A state in which a number must come reads the whole value or fails. -/
theorem run_number (h : IsValue ts) {f : Binary64 → StrictReader}
    (hstep : ∀ t, t ≠ .closeArray → step target s t = f <$> readNumber t) :
    run target s (ts ++ us) = readValue ts >>= fun x => run target (f x) us := by
  obtain ⟨t, rest, rfl, ht⟩ := h.exists_cons
  have hnumber : readValue (t :: rest) = readNumber t := rfl
  rw [hnumber]
  cases hread : readNumber t with
  | error e =>
      have herror : step target s t = .error e := by
        rw [hstep t ht, hread]
        rfl
      exact run_cons_error herror
  | ok x =>
      have hok : step target s t = .ok (f x) := by
        rw [hstep t ht, hread]
        rfl
      -- A value that starts with a number is that number.
      obtain ⟨n, hn, -⟩ := (readValue_eq_ok_iff h).mp (hnumber.trans hread)
      rw [(List.cons.inj hn).2]
      exact run_cons_ok hok

/-! ### Arrays -/

/-- The components that the items of an array are. -/
def readItems (target : Expected) : List (List Token) → Except ReadError Vec
  | [] => throw (.refused (.invalidLength 0 target))
  | [a] => do
    let _ ← readValue a
    throw (.refused (.invalidLength 1 target))
  | [a, b] => do
    let x ← readValue a
    let y ← readValue b
    return ⟨x, y⟩
  | a :: b :: _ :: _ => do
    let _ ← readValue a
    let _ ← readValue b
    throw .malformed

theorem readStrictly_eq_run (target : Expected) (ts : List Token) :
    readStrictly target ts = run target start ts >>= finish := rfl

theorem readStrictly_array {items : List (List Token)} (h : ∀ ts ∈ items, IsValue ts) :
    readStrictly target (arrayTokens items) = readItems target items := by
  have hfirst {a us : List Token} (ha : IsValue a) :
      run target firstItem (a ++ us) = readValue a >>= fun x => run target (afterFirst x) us :=
    run_number ha fun t ht => by cases t <;> first | rfl | exact absurd rfl ht
  have hsecond {x : Binary64} {b us : List Token} (hb : IsValue b) :
      run target (secondItem x) (b ++ us)
        = readValue b >>= fun y => run target (afterSecond x y) us :=
    run_number hb fun t _ => rfl
  rw [readStrictly_eq_run, arrayTokens, run_cons_ok (r := firstItem) rfl]
  rcases items with _ | ⟨a, _ | ⟨b, _ | ⟨d, rest⟩⟩⟩
  · rfl
  · rw [separated, hfirst (h a (by simp)), bind_assoc]
    rfl
  · rw [separated, List.append_assoc, hfirst (h a (by simp)), bind_assoc]
    refine bind_congr fun x => ?_
    show run target (secondItem x) (b ++ _) >>= finish = _
    rw [hsecond (h b (by simp)), bind_assoc]
    rfl
  · rw [separated, List.append_assoc, hfirst (h a (by simp)), bind_assoc]
    refine bind_congr fun x => ?_
    show run target (secondItem x) (separated (b :: d :: rest) ++ _) >>= finish = _
    rw [separated, List.append_assoc, hsecond (h b (by simp)), bind_assoc]
    rfl

theorem readItems_eq_ok_iff {items : List (List Token)} (h : ∀ ts ∈ items, IsValue ts) {v : Vec} :
    readItems target items = .ok v ↔ ∃ m n : Number,
      items = [[.scalar (.number m)], [.scalar (.number n)]] ∧
        v = ⟨m.toBinary64, n.toBinary64⟩ := by
  constructor
  · intro hread
    rcases items with _ | ⟨a, _ | ⟨b, _ | ⟨d, rest⟩⟩⟩
    · cases hread
    · obtain ⟨x, -, hread⟩ := bind_eq_ok_iff.mp hread
      cases hread
    · obtain ⟨x, ha, hread⟩ := bind_eq_ok_iff.mp hread
      obtain ⟨y, hb, hread⟩ := bind_eq_ok_iff.mp hread
      obtain ⟨m, rfl, rfl⟩ := (readValue_eq_ok_iff (h a (by simp))).mp ha
      obtain ⟨n, rfl, rfl⟩ := (readValue_eq_ok_iff (h b (by simp))).mp hb
      exact ⟨m, n, rfl, (Except.ok.inj hread).symm⟩
    · obtain ⟨x, -, hread⟩ := bind_eq_ok_iff.mp hread
      obtain ⟨y, -, hread⟩ := bind_eq_ok_iff.mp hread
      cases hread
  · rintro ⟨m, n, rfl, rfl⟩
    rfl

/-! ### Objects -/

/-- The key of the member that holds a component. -/
def keyOf : Axis → String
  | .x => "x"
  | .y => "y"

theorem fieldOfKey_eq_some_iff {k : String} {axis : Axis} :
    fieldOfKey k = some axis ↔ k = keyOf axis := by
  unfold fieldOfKey
  by_cases hx : k = "x"
  · subst hx
    cases axis <;> decide
  · by_cases hy : k = "y"
    · subst hy
      cases axis <;> decide
    · rw [if_neg hx, if_neg hy]
      cases axis <;> simp [keyOf, hx, hy]

/-- The components after one more member. -/
def readMember (c : Components) (m : String × List Token) : Except ReadError Components :=
  match fieldOfKey m.1 with
  | none => pure c
  | some axis =>
    if (c.get? axis).isSome then throw (.refused (.duplicateField axis))
    else c.put axis <$> readValue m.2

theorem run_member {m : String × List Token} (h : IsValue m.2) :
    run target (key c) (memberTokens m ++ us)
      = readMember c m >>= fun c => run target (afterMember c) us := by
  obtain ⟨k, ts⟩ := m
  cases hfield : fieldOfKey k with
  | none =>
      have hkey : step target (key c) (.scalar (.string k)) = .ok (colon none c) := by
        simp only [step, readKey, hfield]
        rfl
      have hvalue : run target (skipping (.value []) c) (ts ++ us)
          = run target (afterMember c) us :=
        run_append_ok (run_skipping h [])
      simp only [readMember, hfield]
      refine (run_cons_ok hkey).trans ?_
      refine (run_cons_ok (r := skipping (.value []) c) rfl).trans ?_
      exact hvalue
  | some axis =>
      by_cases hseen : (c.get? axis).isSome
      · have hkey : step target (key c) (.scalar (.string k))
            = .error (.refused (.duplicateField axis)) := by
          simp only [step, readKey, hfield, hseen, if_true]
          rfl
        simp only [readMember, hfield, hseen, if_true]
        exact run_cons_error hkey
      · have hkey : step target (key c) (.scalar (.string k)) = .ok (colon (some axis) c) := by
          simp only [step, readKey, hfield, hseen]
          rfl
        have hvalue : run target (component axis c) (ts ++ us)
            = readValue ts >>= fun x => run target (afterMember (c.put axis x)) us :=
          run_number h fun t _ => rfl
        simp only [readMember, hfield, hseen, Bool.false_eq_true, if_false, bind_map_left]
        refine (run_cons_ok hkey).trans ?_
        exact (run_cons_ok (r := component axis c) rfl).trans hvalue

/-- From a key on, the rest of an object is a fold over its members. -/
theorem run_members {members : List (String × List Token)} (h : ∀ m ∈ members, IsValue m.2)
    (hne : members ≠ []) :
    run target (key c) (separated (members.map memberTokens) ++ [.closeObject])
      = members.foldlM readMember c >>= fun c => done <$> c.toVec := by
  induction members generalizing c with
  | nil => exact absurd rfl hne
  | cons m rest ih =>
      have hclose (c : Components) :
          run target (afterMember c) [.closeObject] = done <$> c.toVec := by
        show (done <$> c.toVec) >>= pure = _
        rw [bind_pure]
      rw [List.foldlM_cons, bind_assoc]
      cases rest with
      | nil =>
          rw [List.map_singleton, separated, run_member (h m (by simp))]
          simp only [List.foldlM_nil, pure_bind, hclose]
      | cons n rest =>
          rw [List.map_cons, List.map_cons, separated, List.append_assoc,
            run_member (h m (by simp))]
          refine bind_congr fun c => ?_
          refine (run_cons_ok (r := key c) rfl).trans ?_
          exact ih (fun k hk => h k (by simp [hk])) (by simp)

/-- **An object is read as the fold over its members.** -/
theorem readStrictly_object {members : List (String × List Token)}
    (h : ∀ m ∈ members, IsValue m.2) :
    readStrictly target (objectTokens members)
      = members.foldlM readMember ⟨none, none⟩ >>= Components.toVec := by
  have hfinish (a : Except ReadError Vec) : done <$> a >>= finish = a := by
    cases a <;> rfl
  rw [readStrictly_eq_run, objectTokens, run_cons_ok (r := firstKey) rfl]
  cases members with
  | nil => rfl
  | cons m rest =>
      have hfirst : run target firstKey (separated ((m :: rest).map memberTokens) ++ [.closeObject])
          = run target (key ⟨none, none⟩)
            (separated ((m :: rest).map memberTokens) ++ [.closeObject]) := by
        cases rest <;> rfl
      rw [hfirst, run_members h (by simp), bind_assoc]
      exact bind_congr fun c => hfinish c.toVec

/-! ### Which members there have to be -/

/-- What is known of a component before and after the values of its key: it stays as it
was if there are none, and one value, a number, gives it if it was not known. -/
inductive Gathers : Option Binary64 → List (List Token) → Option Binary64 → Prop
  | none (o : Option Binary64) : Gathers o [] o
  | number (n : Number) : Gathers .none [[.scalar (.number n)]] (some n.toBinary64)

theorem gathers_some_iff {x : Binary64} {values : List (List Token)} {o : Option Binary64} :
    Gathers (some x) values o ↔ values = [] ∧ o = some x := by
  constructor
  · intro h
    cases h
    exact ⟨rfl, rfl⟩
  · rintro ⟨rfl, rfl⟩
    exact .none _

theorem gathers_cons_iff {b o : Option Binary64} {value : List Token} {values : List (List Token)} :
    Gathers b (value :: values) o ↔ b = none ∧ ∃ n : Number,
      value = [.scalar (.number n)] ∧ values = [] ∧ o = some n.toBinary64 := by
  constructor
  · intro h
    cases h
    exact ⟨rfl, _, rfl, rfl, rfl⟩
  · rintro ⟨rfl, n, rfl, rfl, rfl⟩
    exact .number n

theorem get?_put_self (axis : Axis) (x : Binary64) : (c.put axis x).get? axis = some x := by
  cases axis <;> rfl

theorem get?_put_of_ne {axis other : Axis} (h : other ≠ axis) (x : Binary64) :
    (c.put axis x).get? other = c.get? other := by
  cases axis <;> cases other <;> first | rfl | exact absurd rfl h

theorem Components.ext_get? {c d : Components} (h : ∀ axis, c.get? axis = d.get? axis) : c = d := by
  obtain ⟨cx, cy⟩ := c
  obtain ⟨dx, dy⟩ := d
  obtain rfl : cx = dx := h .x
  obtain rfl : cy = dy := h .y
  rfl

theorem keyOf_injective {axis other : Axis} (h : keyOf other = keyOf axis) : other = axis := by
  cases axis <;> cases other <;> first | rfl | exact absurd h (by decide)

theorem readMember_of_ne {m : String × List Token} (h : ∀ axis, m.1 ≠ keyOf axis) :
    readMember c m = .ok c := by
  cases hfield : fieldOfKey m.1 with
  | none =>
      simp only [readMember, hfield]
      rfl
  | some axis => exact absurd (fieldOfKey_eq_some_iff.mp hfield) (h axis)

theorem readMember_eq_ok_iff {m : String × List Token} {axis : Axis} (h : m.1 = keyOf axis)
    (hvalue : IsValue m.2) {d : Components} :
    readMember c m = .ok d ↔ c.get? axis = none ∧
      ∃ n : Number, m.2 = [.scalar (.number n)] ∧ d = c.put axis n.toBinary64 := by
  simp only [readMember, fieldOfKey_eq_some_iff.mpr h]
  cases hseen : c.get? axis with
  | some x => simp [throw, throwThe, MonadExceptOf.throw]
  | none =>
      simp only [Option.isSome_none, Bool.false_eq_true, if_false, true_and]
      constructor
      · intro hread
        obtain ⟨x, hx, hd⟩ := bind_eq_ok_iff.mp hread
        obtain ⟨n, hn, rfl⟩ := (readValue_eq_ok_iff hvalue).mp hx
        exact ⟨n, hn, (Except.ok.inj hd).symm⟩
      · rintro ⟨n, hn, rfl⟩
        rw [(readValue_eq_ok_iff hvalue).mpr ⟨n, hn, rfl⟩]
        rfl

/-- **The fold succeeds exactly if each component is gathered from the values of its
key.** -/
theorem foldlM_readMember_eq_ok_iff {members : List (String × List Token)}
    (h : ∀ m ∈ members, IsValue m.2) {d : Components} :
    members.foldlM readMember c = .ok d ↔
      ∀ axis, Gathers (c.get? axis) (valuesAt (keyOf axis) members) (d.get? axis) := by
  induction members generalizing c with
  | nil =>
      constructor
      · intro hread axis
        cases hread
        exact .none _
      · intro hgathers
        refine congrArg Except.ok (Components.ext_get? fun axis => ?_)
        generalize hb : c.get? axis = b
        have hg := hgathers axis
        rw [hb] at hg
        cases hg
        rfl
  | cons m rest ih =>
      have hrest := fun k hk => h k (List.mem_cons_of_mem m hk)
      rw [List.foldlM_cons, bind_eq_ok_iff]
      by_cases hkey : ∃ axis, m.1 = keyOf axis
      · obtain ⟨axis, hkey⟩ := hkey
        have hother {other : Axis} (hne : other ≠ axis) : m.1 ≠ keyOf other := by
          intro heq
          exact hne (keyOf_injective (heq.symm.trans hkey))
        constructor
        · rintro ⟨e, hm, hfold⟩ other
          obtain ⟨hnone, n, hn, rfl⟩ := (readMember_eq_ok_iff hkey (h m (by simp))).mp hm
          have hg := (ih hrest).mp hfold other
          by_cases hne : other = axis
          · subst hne
            rw [get?_put_self, gathers_some_iff] at hg
            rw [Json.valuesAt_cons_self hkey, gathers_cons_iff]
            exact ⟨hnone, n, hn, hg⟩
          · rw [get?_put_of_ne hne] at hg
            rwa [Json.valuesAt_cons_of_ne (hother hne)]
        · intro hgathers
          have hg := hgathers axis
          rw [Json.valuesAt_cons_self hkey, gathers_cons_iff] at hg
          obtain ⟨hnone, n, hn, hnil, hd⟩ := hg
          refine ⟨_, (readMember_eq_ok_iff hkey (h m (by simp))).mpr ⟨hnone, n, hn, rfl⟩,
            (ih hrest).mpr fun other => ?_⟩
          by_cases hne : other = axis
          · subst hne
            rw [get?_put_self, gathers_some_iff]
            exact ⟨hnil, hd⟩
          · have hg := hgathers other
            rwa [get?_put_of_ne hne, ← Json.valuesAt_cons_of_ne (hother hne)]
      · have hne (axis : Axis) : m.1 ≠ keyOf axis := fun heq => hkey ⟨axis, heq⟩
        have hvalues (axis : Axis) := Json.valuesAt_cons_of_ne (hne axis) rest
        simp only [readMember_of_ne hne, Except.ok.injEq, exists_eq_left', hvalues]
        exact ih hrest

theorem toVec_eq_ok_iff {v : Vec} : c.toVec = .ok v ↔ c = ⟨some v.x, some v.y⟩ := by
  obtain ⟨cx, cy⟩ := c
  obtain ⟨vx, vy⟩ := v
  cases cx <;> cases cy <;>
    simp [Components.toVec, throw, throwThe, MonadExceptOf.throw, pure, Except.pure]

/-- **An object is accepted exactly if `x` and `y` have one value each, a number.** -/
theorem readStrictly_object_eq_ok_iff {members : List (String × List Token)}
    (h : ∀ m ∈ members, IsValue m.2) {v : Vec} :
    readStrictly target (objectTokens members) = .ok v ↔ ∃ m n : Number,
      valuesAt "x" members = [[.scalar (.number m)]] ∧
      valuesAt "y" members = [[.scalar (.number n)]] ∧ v = ⟨m.toBinary64, n.toBinary64⟩ := by
  have hgathers (values : List (List Token)) (x : Binary64) : Gathers none values (some x) ↔
      ∃ n : Number, values = [[.scalar (.number n)]] ∧ x = n.toBinary64 := by
    constructor
    · intro hg
      cases hg with
      | number n => exact ⟨n, rfl, rfl⟩
    · rintro ⟨n, rfl, rfl⟩
      exact .number n
  rw [readStrictly_object h, bind_eq_ok_iff]
  constructor
  · rintro ⟨d, hfold, hvec⟩
    rw [toVec_eq_ok_iff] at hvec
    subst hvec
    have hg := (foldlM_readMember_eq_ok_iff h).mp hfold
    obtain ⟨m, hm, hx⟩ := (hgathers _ _).mp (hg .x)
    obtain ⟨n, hn, hy⟩ := (hgathers _ _).mp (hg .y)
    refine ⟨m, n, hm, hn, ?_⟩
    rw [← hx, ← hy]
  · rintro ⟨m, n, hm, hn, rfl⟩
    refine ⟨⟨some m.toBinary64, some n.toBinary64⟩, ?_, rfl⟩
    refine (foldlM_readMember_eq_ok_iff h).mpr fun axis => ?_
    cases axis with
    | x => exact (hgathers _ _).mpr ⟨m, hm, rfl⟩
    | y => exact (hgathers _ _).mpr ⟨n, hn, rfl⟩

/-- One token is not enough, whatever it is. -/
theorem not_readStrictly_singleton (t : Token) (v : Vec) : readStrictly target [t] ≠ .ok v := by
  intro hread
  cases t <;> cases hread

end StrictReader

namespace Vec

/-- The tokens of a text that describes a vector: an array of exactly two numbers, or an
object in which `x` and `y` have exactly one value each, a number. -/
def Describes (ts : List Token) (v : Vec) : Prop :=
  ∃ m n : Number, v = ⟨m.toBinary64, n.toBinary64⟩ ∧
    (ts = arrayTokens [[.scalar (.number m)], [.scalar (.number n)]] ∨
      ∃ members, IsObject members ts ∧
        valuesAt "x" members = [[.scalar (.number m)]] ∧
        valuesAt "y" members = [[.scalar (.number n)]])

theorem readStrictly_eq_ok_iff (target : Expected) {ts : List Token} (h : IsValue ts) {v : Vec} :
    readStrictly target ts = .ok v ↔ Describes ts v := by
  constructor
  · intro hread
    cases h with
    | scalar s => exact absurd hread (StrictReader.not_readStrictly_singleton _ v)
    | outOfRange => exact absurd hread (StrictReader.not_readStrictly_singleton _ v)
    | unpaired => exact absurd hread (StrictReader.not_readStrictly_singleton _ v)
    | array h =>
        rw [StrictReader.readStrictly_array h, StrictReader.readItems_eq_ok_iff h] at hread
        obtain ⟨m, n, rfl, hv⟩ := hread
        exact ⟨m, n, hv, Or.inl rfl⟩
    | object h =>
        obtain ⟨m, n, hx, hy, hv⟩ := (StrictReader.readStrictly_object_eq_ok_iff h).mp hread
        exact ⟨m, n, hv, Or.inr ⟨_, ⟨h, rfl⟩, hx, hy⟩⟩
  · rintro ⟨m, n, rfl, rfl | ⟨members, ⟨hmembers, rfl⟩, hx, hy⟩⟩
    · rfl
    · exact (StrictReader.readStrictly_object_eq_ok_iff hmembers).mpr ⟨m, n, hx, hy, rfl⟩

/-! ### Order and further members -/

/-- Whether a member holds a component. -/
def isComponent (m : String × List Token) : Bool := m.1 = "x" || m.1 = "y"

/-- The same members hold components, in whatever order and among whatever others. -/
def SameComponents (members members' : List (String × List Token)) : Prop :=
  (members.filter isComponent).Perm (members'.filter isComponent)

theorem SameComponents.symm {members members' : List (String × List Token)}
    (h : SameComponents members members') : SameComponents members' members :=
  List.Perm.symm h

theorem SameComponents.valuesAt_eq {members members' : List (String × List Token)} {key : String}
    (h : SameComponents members members') (hkey : key = "x" ∨ key = "y") {value : List Token}
    (hvalue : valuesAt key members = [value]) : valuesAt key members' = [value] := by
  have hcomponent (m : String × List Token) (hm : m.1 = key) : isComponent m = true := by
    rcases hkey with rfl | rfl <;> simp [isComponent, hm]
  rw [← Json.valuesAt_filter hcomponent] at hvalue ⊢
  have hperm : (valuesAt key (members.filter isComponent)).Perm
      (valuesAt key (members'.filter isComponent)) :=
    (List.Perm.filter _ h).map _
  rw [hvalue] at hperm
  exact List.perm_singleton.mp hperm.symm

theorem readStrictly_of_sameComponents {target : Expected} {ts us : List Token}
    {members members' : List (String × List Token)} (hts : IsObject members ts)
    (hus : IsObject members' us) (h : SameComponents members members') {v : Vec}
    (hread : readStrictly target ts = .ok v) : readStrictly target us = .ok v := by
  obtain ⟨hvalues, rfl⟩ := hts
  obtain ⟨hvalues', rfl⟩ := hus
  obtain ⟨m, n, hx, hy, hv⟩ := (StrictReader.readStrictly_object_eq_ok_iff hvalues).mp hread
  exact (StrictReader.readStrictly_object_eq_ok_iff hvalues').mpr
    ⟨m, n, h.valuesAt_eq (Or.inl rfl) hx, h.valuesAt_eq (Or.inr rfl) hy, hv⟩

theorem ofRecord_ofJsonText_eq_ok_iff {t : String} {v : Vec} :
    ofRecord <$> Record.ofJsonText t = .ok v ↔
      readStrictly .record (Json.tokens t.toList) = .ok v := by
  unfold Record.ofJsonText
  cases readStrictly .record (Json.tokens t.toList) with
  | error e =>
      constructor <;> intro h <;> cases h
  | ok w => exact Iff.rfl

end Vec

end Planar
