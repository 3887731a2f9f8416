/-
Every spelling of an operation has the same outcome.

The edits and the copying functions are different programs.  A copying function makes
its vector at once, from components that do not change.  An edit assigns one component
after the other and reads the cell as it goes, and where it may leave a component alone
it does so by not assigning it.  So each edit is first run on a cell, and what it leaves
there, with the notes and calls on the way, is the copying function's result
(`run_update`, `run_clamp` and so on); the operators stand for one or the other.

The same operation in two spellings then cannot be told apart in one step
(`perform?_eq`), and by induction on the steps it cannot in a run.  What is applied may
be a function with a memory, and functions applied at different steps may share one: an
operation of a run is therefore given the arguments of all calls before it.  Runs that
have made the same calls so far go on with the same operation.
-/
import Planar.Vec.Operation

namespace Planar

/-! ### Edits, run on a cell -/

instance : LawfulMonad Traced := LawfulMonad.mk' Traced
  (fun t => congrArg (Traced.mk t.value) (List.append_nil t.notes))
  (fun _ _ => rfl)
  (fun t f g => congrArg (Traced.mk (g (f t.value).value).value)
    (List.append_assoc t.notes (f t.value).notes (g (f t.value).value).notes))

namespace Edit

/-- Assigning on a condition is assigning either the new component or the old one. -/
theorem setX_if_bind {α : Type} (b : Bool) (x : Binary64) (k : Unit → Edit α) :
    (if b then setX x >>= k else k ())
      = (modify fun v : Vec => ⟨if b then x else v.x, v.y⟩) >>= k := by
  cases b <;> rfl

theorem setY_if_bind {α : Type} (b : Bool) (y : Binary64) (k : Unit → Edit α) :
    (if b then setY y >>= k else k ())
      = (modify fun v : Vec => ⟨v.x, if b then y else v.y⟩) >>= k := by
  cases b <;> rfl

theorem setY_if (b : Bool) (y : Binary64) :
    (if b then setY y else pure () : Edit Unit)
      = modify fun v : Vec => ⟨v.x, if b then y else v.y⟩ := by
  cases b <;> rfl

theorem run_update (fx fy : Binary64 → Binary64) (v : Vec) :
    (update fx fy).run v = pure ((), ⟨fx v.x, fy v.y⟩) := rfl

/-- Both old components are read before either is assigned. -/
theorem run_flip (v : Vec) : flip.run v = pure ((), v.flip) := rfl

theorem run_rotateRadians (angle : Binary64) (v : Vec) :
    (rotateRadians angle).run v = pure ((), v.rotateRadians angle) := rfl

/-- The second call is given what the first was called with, and both their arguments
are old components. -/
theorem run_apply (f : Vec.Closure) (v : Vec) :
    (apply f).run v = pure ((v.apply f).2, (v.apply f).1) := rfl

/-- The two lower bounds come before the two upper ones here and after another in the
copying form; the axes do not touch each other. -/
theorem run_clamp (lo hi v : Vec) : (clamp lo hi).run v = pure ((), v.clamp lo hi) := by
  unfold clamp Vec.clamp Vec.clampComponent
  simp [setX_if_bind, setY_if_bind, setY_if]

theorem run_repair (defaultX defaultY : Option Binary64) (v : Vec) :
    (repair defaultX defaultY).run v = v.repair defaultX defaultY >>= fun w => pure ((), w) := by
  simp [repair, Vec.repair, setX, setY]

theorem run_normalize (v : Vec) : normalize.run v = v.normalize >>= fun w => pure ((), w) := by
  have hrun : normalize.run v = if v.length.numEq 0.0 then Traced.noting .zeroLength ((), v)
      else pure ((), ⟨v.x / v.length, v.y / v.length⟩) := by
    unfold normalize
    by_cases h : v.length.numEq 0.0 = true
    · simp only [StateT.run_bind, StateT.run_get, pure_bind, h, if_true]
      rfl
    · simp only [StateT.run_bind, StateT.run_get, pure_bind, h]
      rfl
  rw [hrun]
  unfold Vec.normalize
  dsimp only
  split <;> rfl

end Edit

/-! ### One step -/

namespace Outcome

/-- An edit whose run is a traced computation of a vector has its outcome. -/
theorem ofEdit_of_run {e : Edit Unit} {v : Vec} {t : Traced Vec}
    (h : e.run v = t >>= fun w => pure ((), w)) : ofEdit e v = ofTraced t := by
  unfold ofEdit ofTraced
  simp only [h, Traced.value_bind, Traced.value_pure, Traced.notes_bind, Traced.notes_pure,
    List.append_nil]

theorem ofEdit_of_run_pure {e : Edit Unit} {v w : Vec} (h : e.run v = pure ((), w)) :
    ofEdit e v = ofVec w := by
  unfold ofEdit ofVec
  simp [h]

end Outcome

namespace Operation

open Outcome (ofEdit_of_run ofEdit_of_run_pure)

/-- **An edit in place has the outcome of the copying function.** -/
theorem inPlace_eq_copying (op : Operation) (v : Vec) : op.inPlace v = op.copying v := by
  cases op with
  | normalize => exact ofEdit_of_run (Edit.run_normalize v)
  | rotateRadians angle => exact ofEdit_of_run_pure (Edit.run_rotateRadians angle v)
  | rotateDegrees angle => exact ofEdit_of_run_pure (Edit.run_rotateRadians _ v)
  | add _ | sub _ | mul _ | div _ => exact ofEdit_of_run_pure (Edit.run_update _ _ v)
  | addScalar _ | subScalar _ | mulScalar _ | divScalar _ =>
      exact ofEdit_of_run_pure (Edit.run_update _ _ v)
  | invert => exact ofEdit_of_run_pure (Edit.run_update (· * -1.0) (· * -1.0) v)
  | flip => exact ofEdit_of_run_pure (Edit.run_flip v)
  | abs | round => exact ofEdit_of_run_pure (Edit.run_update _ _ v)
  | clamp lo hi => exact ofEdit_of_run_pure (Edit.run_clamp lo hi v)
  | repair dx dy => exact ofEdit_of_run (Edit.run_repair dx dy v)
  | apply f =>
      show Outcome.ofCallingEdit (Edit.apply f) v = _
      unfold Outcome.ofCallingEdit
      rw [Edit.run_apply]
      rfl

/-- Which operations have which spellings. -/
def offers : Operation → Spelling → Bool
  | _, .inPlace | _, .copying => true
  | add _, .operator | sub _, .operator | mul _, .operator | div _, .operator => true
  | addScalar _, .operator | subScalar _, .operator => true
  | mulScalar _, .operator | divScalar _, .operator => true
  | invert, .operator => true
  | add _, .assigning | sub _, .assigning | mul _, .assigning | div _, .assigning => true
  | addScalar _, .assigning | subScalar _, .assigning => true
  | mulScalar _, .assigning | divScalar _, .assigning => true
  | mulScalar _, .numberFirst => true
  | _, _ => false

/-- **A spelling that an operation has gives the outcome of its copying form.** -/
theorem perform?_eq (op : Operation) (s : Spelling) (v : Vec) :
    op.perform? s v = if op.offers s then some (op.copying v) else none := by
  cases s with
  | inPlace => exact congrArg some (op.inPlace_eq_copying v)
  | copying => rfl
  | operator => cases op <;> rfl
  | assigning => cases op <;> rfl
  | numberFirst => cases op <;> rfl

/-! ### Runs -/

/-- A step of a run: an operation, chosen by the arguments of all calls of given
functions before it, and the spelling in which it is asked for. -/
structure Step where
  operation : List Binary64 → Operation
  spelling : Spelling

/-- Whatever was called before, the operation has the spelling. -/
def Step.Available (step : Step) : Prop :=
  ∀ calls, (step.operation calls).offers step.spelling = true

/-- The outcomes of a run that starts after some calls. -/
def follow? : List Step → List Binary64 → Vec → Option (List Outcome)
  | [], _, _ => some []
  | step :: rest, calls, v => do
    let outcome ← (step.operation calls).perform? step.spelling v
    let outcomes ← follow? rest (calls ++ outcome.calls) outcome.vector
    return outcome :: outcomes

/-- Operations that do not look at the calls are run as they stand. -/
theorem run?_eq_follow? (steps : List (Operation × Spelling)) (calls : List Binary64) (v : Vec) :
    run? steps v = follow? (steps.map fun p => ⟨fun _ => p.1, p.2⟩) calls v := by
  induction steps generalizing calls v with
  | nil => rfl
  | cons p rest ih =>
      obtain ⟨op, s⟩ := p
      cases h : op.perform? s v with
      | none => simp only [run?, List.map_cons, follow?, h, Option.bind_eq_bind, Option.bind_none]
      | some outcome =>
          simp only [run?, List.map_cons, follow?, h, Option.bind_eq_bind, Option.bind_some]
          rw [ih (calls ++ outcome.calls) outcome.vector]

/-- The outcomes of operations in their copying forms. -/
def copies : List (List Binary64 → Operation) → List Binary64 → Vec → List Outcome
  | [], _, _ => []
  | op :: rest, calls, v =>
    let outcome := (op calls).copying v
    outcome :: copies rest (calls ++ outcome.calls) outcome.vector

theorem length_copies (ops : List (List Binary64 → Operation)) (calls : List Binary64) (v : Vec) :
    (copies ops calls v).length = ops.length := by
  induction ops generalizing calls v with
  | nil => rfl
  | cons op rest ih => simp only [copies, List.length_cons, ih]

/-- A run has the outcomes of the copying forms, whatever the spellings. -/
theorem follow?_eq_copies {steps : List Step} (h : ∀ step ∈ steps, step.Available)
    (calls : List Binary64) (v : Vec) :
    follow? steps calls v = some (copies (steps.map Step.operation) calls v) := by
  induction steps generalizing calls v with
  | nil => rfl
  | cons step rest ih =>
      have hstep : (step.operation calls).perform? step.spelling v
          = some ((step.operation calls).copying v) := by
        rw [perform?_eq, if_pos (h step List.mem_cons_self calls)]
      have hrest := ih fun t ht => h t (List.mem_cons_of_mem step ht)
      simp only [follow?, hstep, hrest, List.map_cons, copies, Option.bind_eq_bind,
        Option.bind_some, Option.pure_def]

/-- **Runs of the same operations have the same outcomes, vectors, calls and notes, in
whatever spellings they are asked for.** -/
theorem spellings_agree {steps steps' : List Step}
    (hsame : steps.map Step.operation = steps'.map Step.operation)
    (h : ∀ step ∈ steps, step.Available) (h' : ∀ step ∈ steps', step.Available) (v : Vec) :
    ∃ outcomes : List Outcome, outcomes.length = steps.length ∧
      follow? steps [] v = some outcomes ∧ follow? steps' [] v = some outcomes := by
  refine ⟨copies (steps.map Step.operation) [] v, ?_, follow?_eq_copies h [] v, ?_⟩
  · rw [length_copies, List.length_map]
  · rw [follow?_eq_copies h' [] v, hsame]

/-- Adds to each component how many calls there have been, in this step and before it. -/
def addCallCount (calls : List Binary64) : Operation :=
  .apply fun earlier c => c + Binary64.ofInt (calls ++ earlier).length

/-- Such an addition, the vector turned round, and another addition. -/
def countingSteps (first second third : Spelling) : List Step :=
  [⟨addCallCount, first⟩, ⟨fun _ => invert, second⟩, ⟨addCallCount, third⟩]

/-- The count goes on from step to step. -/
theorem spellings_agree_counting :
    (∀ step ∈ countingSteps .inPlace .operator .copying, step.Available) ∧
      (∀ step ∈ countingSteps .copying .inPlace .inPlace, step.Available) ∧
      (∃ outcomes : List Outcome, outcomes.length = 3 ∧
        follow? (countingSteps .inPlace .operator .copying) [] Vec.one = some outcomes ∧
        follow? (countingSteps .copying .inPlace .inPlace) [] Vec.one = some outcomes) ∧
      (follow? (countingSteps .inPlace .operator .copying) [] Vec.one).map
        (List.map Outcome.calls) = some [[1.0, 1.0], [], [-1.0, -2.0]] := by
  have havailable : ∀ step ∈ countingSteps .inPlace .operator .copying, step.Available := by
    intro step hstep calls
    simp only [countingSteps, List.mem_cons, List.not_mem_nil, or_false] at hstep
    rcases hstep with rfl | rfl | rfl <;> rfl
  have havailable' : ∀ step ∈ countingSteps .copying .inPlace .inPlace, step.Available := by
    intro step hstep calls
    simp only [countingSteps, List.mem_cons, List.not_mem_nil, or_false] at hstep
    rcases hstep with rfl | rfl | rfl <;> rfl
  have hsame : (countingSteps .inPlace .operator .copying).map Step.operation
      = (countingSteps .copying .inPlace .inPlace).map Step.operation := rfl
  exact ⟨havailable, havailable', spellings_agree hsame havailable havailable' Vec.one,
    by decide +kernel⟩

end Operation

end Planar
