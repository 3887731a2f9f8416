/-
Filling a template in two passes and in one.

`format` replaces the marks of one letter after the other, so its second pass runs over
what the first has inserted.  `fill` replaces all marks at once: one scan from left to
right, in which a mark is a percent sign with a letter that has a value.

Two passes are one (`fill_fill`) if nothing that the first inserts can be part of a mark
of the second.  Three things make sure of that: the inserted text has no percent sign, so
no mark begins in it; it does not start with a letter of the second pass, so a percent
sign before it does not make a mark with it; and it is not empty, so that same percent
sign does not make one with what follows it either.  The percent sign itself must not
be a letter with a value, or a doubled one would be a mark.

The texts of numbers are such texts for either letter, whether finite or not.
-/
import Planar.Proofs.Reading
import Planar.Vec.Text

namespace Planar.Vec

/-! ### One scan -/

/-- A text with every mark replaced, a percent sign and a letter that has a value. -/
def fill (value? : Char → Option (List Char)) : List Char → List Char
  | [] => []
  | [c] => [c]
  | c :: d :: rest =>
    match (if c = '%' then value? d else none) with
    | some text => text ++ fill value? rest
    | none => c :: fill value? (d :: rest)

section

variable {f g : Char → Option (List Char)}

theorem fill_mark {d : Char} {text : List Char} (h : f d = some text) (rest : List Char) :
    fill f ('%' :: d :: rest) = text ++ fill f rest := by
  simp [fill, h]

theorem fill_cons_of_ne {c : Char} (h : c ≠ '%') (cs : List Char) :
    fill f (c :: cs) = c :: fill f cs := by
  cases cs with
  | nil => rfl
  | cons d rest => simp [fill, h]

theorem fill_percent {cs : List Char} (h : ∀ d ∈ cs.head?, f d = none) :
    fill f ('%' :: cs) = '%' :: fill f cs := by
  cases cs with
  | nil => rfl
  | cons d rest => simp [fill, h d rfl]

/-- A text without percent signs is copied. -/
theorem fill_append {text : List Char} (h : '%' ∉ text) (cs : List Char) :
    fill f (text ++ cs) = text ++ fill f cs := by
  induction text with
  | nil => rfl
  | cons c text ih =>
      simp only [List.mem_cons, not_or] at h
      rw [List.cons_append, fill_cons_of_ne (Ne.symm h.1), ih h.2, List.cons_append]

/-- What stands before a mark and what stands behind it are filled each on its own, and
the text that is inserted between them is not looked at again. -/
theorem fill_append_mark (hpercent : f '%' = none) {d : Char} {text : List Char}
    (h : f d = some text) (before after : List Char) :
    fill f (before ++ '%' :: d :: after) = fill f before ++ text ++ fill f after := by
  induction before using fill.induct f with
  | case1 => exact fill_mark h after
  | case2 c =>
      by_cases hc : c = '%'
      · have hhead : ∀ e ∈ ('%' :: d :: after).head?, f e = none := by
          intro e he
          obtain rfl := Option.some.inj he
          exact hpercent
        rw [hc, List.singleton_append, fill_percent hhead, fill_mark h]
        rfl
      · rw [List.singleton_append, fill_cons_of_ne hc, fill_mark h]
        rfl
  | case3 c e rest value hvalue ih =>
      simp only [List.cons_append, fill, hvalue, ih, List.append_assoc]
  | case4 c e rest hvalue ih =>
      simp only [List.cons_append] at ih ⊢
      simp only [fill, hvalue, ih, List.cons_append]

/-! ### Two scans -/

/-- A text that cannot take part in a mark. -/
structure Inert (value? : Char → Option (List Char)) (text : List Char) : Prop where
  nonempty : text ≠ []
  noPercent : '%' ∉ text
  head : ∀ c ∈ text.head?, value? c = none

/-- Filling makes no letter of another scan the first character. -/
theorem head_fill (hf : ∀ d text, f d = some text → Inert g text) {cs : List Char}
    (h : ∀ c ∈ cs.head?, g c = none) : ∀ c ∈ (fill f cs).head?, g c = none := by
  intro c hc
  cases cs using fill.fun_cases f with
  | case1 => exact h c hc
  | case2 d => exact h c hc
  | case3 d e rest text htext =>
      simp only [fill, htext] at hc
      have hinert : Inert g text := by
        split at htext
        · exact hf e text htext
        · cases htext
      refine hinert.head c ?_
      rwa [List.head?_append_of_ne_nil _ hinert.nonempty] at hc
  | case4 d e rest htext =>
      simp only [fill, htext] at hc
      exact h c hc

/-- **Two scans are one if what the first inserts is inert for the second.** -/
theorem fill_fill (hpercent : g '%' = none) (hf : ∀ d text, f d = some text → Inert g text)
    (cs : List Char) : fill g (fill f cs) = fill (fun d => (f d).or (g d)) cs := by
  induction cs using fill.induct f with
  | case1 => rfl
  | case2 c => rfl
  | case3 c d rest text htext ih =>
      obtain ⟨rfl, hd⟩ : c = '%' ∧ f d = some text := by
        split at htext
        · next hc => exact ⟨hc, htext⟩
        · cases htext
      have hboth : (f d).or (g d) = some text := by rw [hd, Option.some_or]
      rw [fill_mark hd, fill_append (hf d text hd).noPercent, ih, fill_mark hboth]
  | case4 c d rest htext ih =>
      have hkept : fill f (c :: d :: rest) = c :: fill f (d :: rest) := by
        simp only [fill, htext]
      rw [hkept]
      by_cases hc : c = '%'
      · subst hc
        rw [if_pos rfl] at htext
        cases hd : g d with
        | some text =>
            -- The letter is not a percent sign, so the first scan has left it where it is.
            have hne : d ≠ '%' := by
              rintro rfl
              rw [hpercent] at hd
              cases hd
            have hboth : (f d).or (g d) = some text := by rw [htext, Option.none_or, hd]
            rw [fill_cons_of_ne hne, fill_cons_of_ne hne, fill_cons_of_ne hne] at ih
            rw [fill_cons_of_ne hne, fill_mark hd, fill_mark hboth, (List.cons.inj ih).2]
        | none =>
            have hboth : (f d).or (g d) = none := by rw [htext, Option.none_or, hd]
            have hhead : ∀ e ∈ (fill f (d :: rest)).head?, g e = none := by
              refine head_fill hf fun e he => ?_
              obtain rfl := Option.some.inj he
              exact hd
            rw [fill_percent hhead, ih, fill_percent]
            intro e he
            obtain rfl := Option.some.inj he
            exact hboth
      · rw [fill_cons_of_ne hc, fill_cons_of_ne hc, ih]

end

/-! ### Templates -/

/-- A value for one letter. -/
def onlyAt (letter : Char) (text : List Char) (d : Char) : Option (List Char) :=
  if d = letter then some text else none

theorem replaceMark_eq_fill (letter : Char) (text cs : List Char) :
    replaceMark letter text cs = fill (onlyAt letter text) cs := by
  induction cs using replaceMark.induct letter with
  | case1 => rfl
  | case2 c => rfl
  | case3 c d rest h ih =>
      obtain ⟨rfl, rfl⟩ := h
      simp [replaceMark, fill, onlyAt, ih]
  | case4 c d rest h ih =>
      have hvalue : (if c = '%' then onlyAt letter text d else none) = none := by
        by_cases hc : c = '%'
        · have hd : d ≠ letter := fun hd => h ⟨hc, hd⟩
          rw [if_pos hc, onlyAt, if_neg hd]
        · rw [if_neg hc]
      simp only [replaceMark, h, if_false, fill, hvalue, ih]

/-- What the marks of a template stand for. -/
def markValue? (v : Vec) (d : Char) : Option (List Char) :=
  if d = 'x' then some (componentText v.x)
  else if d = 'y' then some (componentText v.y)
  else none

/-- The text of a number has no percent sign in it and no letter of a mark. -/
theorem ne_of_mem_componentText {x : Binary64} {c : Char} (hc : c ∈ componentText x) :
    c ≠ '%' ∧ c ≠ 'x' ∧ c ≠ 'y' := by
  cases x with
  | nan =>
      have hall : (componentText .nan).all
          (fun d => decide (d ≠ '%' ∧ d ≠ 'x' ∧ d ≠ 'y')) = true := by decide
      exact of_decide_eq_true (List.all_eq_true.mp hall c hc)
  | infinite s =>
      have hall : (componentText (.infinite s)).all
          (fun d => decide (d ≠ '%' ∧ d ≠ 'x' ∧ d ≠ 'y')) = true := by cases s <;> decide
      exact of_decide_eq_true (List.all_eq_true.mp hall c hc)
  | finite s r =>
      obtain ⟨n, hn, htext, hvalue⟩ := exists_numeral_write .plain s r
      change componentText (.finite s r) = n.text at htext
      rw [htext] at hc
      cases n with
      | infinity sign => cases hvalue
      | decimal sign whole fraction power =>
          have hchar := mem_decimalMarks_of_mem_text hn hc
          refine ⟨?_, ?_, ?_⟩ <;> rintro rfl <;> exact absurd hchar (by decide)

theorem componentText_ne_nil (x : Binary64) : componentText x ≠ [] := by
  cases x with
  | nan => decide
  | infinite s => cases s <;> decide
  | finite s r =>
      obtain ⟨n, hn, htext, -⟩ := exists_numeral_write .plain s r
      change componentText (.finite s r) = n.text at htext
      rw [htext]
      exact Numeral.scan?_text_ne_nil (Numeral.scan?_text_append hn stops_nil)

/-- So it is inert for the marks of either letter. -/
theorem inert_componentText {letter : Char} (h : letter = 'x' ∨ letter = 'y') (text : List Char)
    (x : Binary64) : Inert (onlyAt letter text) (componentText x) := by
  refine ⟨componentText_ne_nil x, fun hmem => (ne_of_mem_componentText hmem).1 rfl, ?_⟩
  intro c hc
  have hne := ne_of_mem_componentText (List.mem_of_mem_head? hc)
  refine if_neg ?_
  rintro rfl
  rcases h with rfl | rfl
  · exact hne.2.1 rfl
  · exact hne.2.2 rfl

/-- Two passes, one letter after the other, fill a template as one scan for both. -/
theorem replaceMark_replaceMark {first second : Char} (hfirst : first ≠ second)
    (hletter : second = 'x' ∨ second = 'y') (a b : Binary64) (cs : List Char) :
    replaceMark second (componentText b) (replaceMark first (componentText a) cs)
      = fill (fun d => (onlyAt first (componentText a) d).or (onlyAt second (componentText b) d))
        cs := by
  rw [replaceMark_eq_fill, replaceMark_eq_fill]
  refine fill_fill ?_ ?_ cs
  · refine if_neg ?_
    rcases hletter with rfl | rfl <;> decide
  · intro d text hd
    unfold onlyAt at hd
    split at hd
    · cases hd
      exact inert_componentText hletter _ a
    · cases hd

theorem markValue?_eq (v : Vec) : v.markValue?
    = fun d => (onlyAt 'x' (componentText v.x) d).or (onlyAt 'y' (componentText v.y) d) := by
  funext d
  unfold markValue? onlyAt
  by_cases hx : d = 'x'
  · simp [hx]
  · simp [hx]

theorem markValue?_eq_swapped (v : Vec) : v.markValue?
    = fun d => (onlyAt 'y' (componentText v.y) d).or (onlyAt 'x' (componentText v.x) d) := by
  funext d
  unfold markValue? onlyAt
  by_cases hy : d = 'y'
  · simp [hy]
  · simp [hy]

/-- **The two passes over a template are one scan that replaces both kinds of marks, in
either order of the passes; what is inserted at a mark is not looked at again; and the
empty template gives the plain text.** -/
theorem format_eq_fill (v : Vec) :
    (∀ template : String, template ≠ "" →
      v.format template = String.ofList (fill v.markValue? template.toList) ∧
      v.format template = String.ofList (replaceMark 'x' (componentText v.x)
        (replaceMark 'y' (componentText v.y) template.toList))) ∧
    (∀ before after : List Char,
      fill v.markValue? (before ++ '%' :: 'x' :: after)
        = fill v.markValue? before ++ componentText v.x ++ fill v.markValue? after ∧
      fill v.markValue? (before ++ '%' :: 'y' :: after)
        = fill v.markValue? before ++ componentText v.y ++ fill v.markValue? after) ∧
    v.format "" = v.text := by
  have hformat {template : String} (h : template ≠ "") : v.format template
      = String.ofList (fill v.markValue? template.toList) := by
    have hempty : template.isEmpty = false := by
      rw [← Bool.not_eq_true, String.isEmpty_iff]
      exact h
    unfold format
    rw [hempty, markValue?_eq, ← replaceMark_replaceMark (by decide) (Or.inr rfl)]
    rfl
  refine ⟨fun template h => ⟨hformat h, ?_⟩, fun before after => ⟨?_, ?_⟩, ?_⟩
  · rw [hformat h, markValue?_eq_swapped, ← replaceMark_replaceMark (by decide) (Or.inl rfl)]
  · exact fill_append_mark rfl rfl before after
  · exact fill_append_mark rfl rfl before after
  · have htemplate : v.format "" = v.format defaultTemplate := rfl
    rw [htemplate, hformat (by decide)]
    show String.ofList (fill v.markValue? ([] ++ '%' :: 'x' :: ',' :: '%' :: 'y' :: [])) = v.text
    rw [fill_append_mark rfl rfl, fill_cons_of_ne (by decide), fill_mark rfl]
    simp [fill, text]

/-- A percent sign before a mark and a letter of a mark behind it, about numbers that are
not finite. -/
theorem format_eq_fill_adjacent :
    "%%xy%x%y" ≠ "" ∧
      (Vec.mk (.infinite true) .nan).format "%%xy%x%y"
        = String.ofList (fill (Vec.mk (.infinite true) .nan).markValue? "%%xy%x%y".toList) ∧
      (Vec.mk (.infinite true) .nan).format "%%xy%x%y" = "%-infy-infNaN" := by
  have hne : "%%xy%x%y" ≠ "" := by decide
  exact ⟨hne, ((format_eq_fill _).1 _ hne).1, by decide +kernel⟩

end Planar.Vec
