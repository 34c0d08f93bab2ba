/-
  Moo-code — moves and counts are undone by their opposites.

  * `Tape.Operation`: the moves of the pointer and the counts of the current cell, each with its
    `opposite`.  `Operation.apply_opposite`: where an operation has led, its opposite leads back.
  * `Tape.follow t w`: the tape after the operations `w`, if all of them succeed, and
    `Tape.tries t w`: the tape after the operations `w` where those that fail are passed over, with
    those that succeeded.  `follow_undo`, `follow_tries`: how the two go together and are undone.
  * `Machine.perform_operation`: what an operation is for a machine.
  * `Tape.follow_invertible`: what succeeds can be undone, and what fails leaves nothing to undo.
-/
import MooCode.Machine.Cycle

namespace MooCode

/-! ## Operations and their opposites -/

/-- What moves the pointer of a tape or counts its current cell. -/
inductive Tape.Operation where
  | forward
  | back
  | increment
  | decrement
  deriving DecidableEq

namespace Tape.Operation

/-- The tape after the operation, unless it fails. -/
def apply : (o : Operation) → (t : Tape) → Except Fault Tape
  | forward, t => t.forward
  | back, t => t.back
  | increment, t => t.increment
  | decrement, t => t.decrement

/-- The operation that goes the other way. -/
def opposite : Operation → Operation
  | forward => back
  | back => forward
  | increment => decrement
  | decrement => increment

/-- The opposites of the operations `w`, the last one first. -/
def undo (w : List Operation) : List Operation :=
  w.reverse.map opposite

/-- The instruction that performs the operation. -/
def instruction : Operation → Instruction
  | forward => .right
  | back => .left
  | increment => .increment
  | decrement => .decrement

theorem undo_cons (o : Operation) (w : List Operation) : undo (o :: w) = undo w ++ [o.opposite] := by
  simp [undo]

end Tape.Operation

namespace Tape
open Operation

variable {t u : Tape}

theorem back_of_forward (h : t.forward = .ok u) : u.back = .ok t := by
  rcases t with ⟨left, here, _ | ⟨r, right⟩⟩ <;> cases h
  rfl

theorem forward_of_back (h : t.back = .ok u) : u.forward = .ok t := by
  rcases t with ⟨_ | ⟨l, left⟩, here, right⟩ <;> cases h
  rfl

theorem increment_eq_ok_iff :
    t.increment = .ok u ↔ ∃ v : Cell, v.toInt = t.here.toInt + 1 ∧ u = t.set v := by
  simp only [increment, Cell.succ?, ← Cell.ofInt?_eq_some_iff]
  rcases Cell.ofInt? (t.here.toInt + 1) with _ | v
  · simp
  · simp [eq_comm]

theorem decrement_eq_ok_iff :
    t.decrement = .ok u ↔ ∃ v : Cell, v.toInt = t.here.toInt - 1 ∧ u = t.set v := by
  simp only [decrement, Cell.pred?, ← Cell.ofInt?_eq_some_iff]
  rcases Cell.ofInt? (t.here.toInt - 1) with _ | v
  · simp
  · simp [eq_comm]

/-- The cell that was counted is in range, so counting back to it does not fail. -/
theorem decrement_of_increment (h : t.increment = .ok u) : u.decrement = .ok t := by
  obtain ⟨v, hv, rfl⟩ := increment_eq_ok_iff.1 h
  refine decrement_eq_ok_iff.2 ⟨t.here, ?_, rfl⟩
  have hh : (t.set v).here = v := rfl
  rw [hh, hv]
  omega

theorem increment_of_decrement (h : t.decrement = .ok u) : u.increment = .ok t := by
  obtain ⟨v, hv, rfl⟩ := decrement_eq_ok_iff.1 h
  refine increment_eq_ok_iff.2 ⟨t.here, ?_, rfl⟩
  have hh : (t.set v).here = v := rfl
  rw [hh, hv]
  omega

/-- **Where an operation has led, its opposite leads back.** -/
theorem Operation.apply_opposite {o : Operation} (h : o.apply t = .ok u) :
    o.opposite.apply u = .ok t := by
  cases o with
  | forward => exact back_of_forward h
  | back => exact forward_of_back h
  | increment => exact decrement_of_increment h
  | decrement => exact increment_of_decrement h

/-! ## Operations in a row -/

/-- The tape after the operations `w`, if all of them succeed. -/
def follow (t : Tape) : (w : List Operation) → Except Fault Tape
  | [] => .ok t
  | o :: w => do (← o.apply t).follow w

/-- The tape after the operations `w`, where one that fails does not stop those after it, and the
    operations that succeeded. -/
def tries (t : Tape) : (w : List Operation) → Tape × List Operation
  | [] => (t, [])
  | o :: w =>
    match o.apply t with
    | .ok u => ((u.tries w).1, o :: (u.tries w).2)
    | .error _ => t.tries w

section
variable {o : Operation} {w w' : List Operation}

theorem follow_cons :
    t.follow (o :: w) = .ok u ↔ ∃ s, o.apply t = .ok s ∧ s.follow w = .ok u := by
  rw [follow]
  cases o.apply t <;> simp [bind, Except.bind]

theorem follow_append :
    t.follow (w ++ w') = .ok u ↔ ∃ s, t.follow w = .ok s ∧ s.follow w' = .ok u := by
  induction w generalizing t with
  | nil => simp [follow]
  | cons o w ih =>
    simp only [List.cons_append, follow_cons, ih]
    constructor
    · rintro ⟨s, ho, s', hw, hu⟩
      exact ⟨s', ⟨s, ho, hw⟩, hu⟩
    · rintro ⟨s', ⟨s, ho, hw⟩, hu⟩
      exact ⟨s, ho, s', hw, hu⟩

/-- **What all succeeds is undone by the opposites, the last one first.** -/
theorem follow_undo (h : t.follow w = .ok u) : u.follow (undo w) = .ok t := by
  induction w generalizing t with
  | nil =>
    cases h
    rfl
  | cons o w ih =>
    obtain ⟨s, ho, hw⟩ := follow_cons.1 h
    rw [undo_cons, follow_append]
    exact ⟨s, ih hw, follow_cons.2 ⟨t, apply_opposite ho, rfl⟩⟩

/-- What fails might as well not have been tried. -/
theorem follow_tries (t : Tape) (w : List Operation) : t.follow (t.tries w).2 = .ok (t.tries w).1 := by
  induction w generalizing t with
  | nil => rfl
  | cons o w ih =>
    rw [tries]
    rcases ho : o.apply t with f | u
    · exact ih t
    · exact follow_cons.2 ⟨u, ho, ih u⟩

theorem tries_append (t : Tape) (w w' : List Operation) :
    (t.tries (w ++ w')).1 = ((t.tries w).1.tries w').1 := by
  induction w generalizing t with
  | nil => rfl
  | cons o w ih =>
    simp only [List.cons_append, tries]
    cases o.apply t with
    | error f => exact ih t
    | ok u => exact ih u

theorem tries_of_follow (h : t.follow w = .ok u) : t.tries w = (u, w) := by
  induction w generalizing t with
  | nil =>
    cases h
    rfl
  | cons o w ih =>
    obtain ⟨s, ho, hw⟩ := follow_cons.1 h
    rw [tries, ho]
    simp only [ih hw]

end

end Tape

/-- An instruction that moves or counts does what the operation does to the tape. -/
theorem Machine.perform_operation (m : Machine) (o : Tape.Operation) (line : Nat) :
    m.perform o.instruction line = m.withTape (o.apply m.tape) := by
  cases o <;> rfl

/-- **Moves and counts are invertible.**  Let `w` be any operations on any tape.
    * If all of them succeed, their opposites in reverse order succeed too, one after the other,
      and lead back to the tape, its cells and its pointer.
    * One that fails leaves the tape as it was, and with it the whole machine that performs it.
    * So, if some of them fail, the opposites of the others lead back. -/
theorem Tape.follow_invertible (t : Tape) (w : List Operation) :
    (∀ u, t.follow w = .ok u →
      t.tries w = (u, w) ∧ u.follow (Operation.undo w) = .ok t ∧
      u.tries (Operation.undo w) = (t, Operation.undo w)) ∧
    (∀ w₁ o w₂ f, w = w₁ ++ o :: w₂ → o.apply (t.tries w₁).1 = .error f →
      (t.tries (w₁ ++ [o])).1 = (t.tries w₁).1 ∧
      ∀ m : Machine, m.tape = (t.tries w₁).1 → ∀ line,
        m.perform o.instruction line = (m, .fail f)) ∧
    (t.tries w).1.follow (Operation.undo (t.tries w).2) = .ok t := by
  refine ⟨?_, ?_, follow_undo (t.follow_tries w)⟩
  · intro u h
    exact ⟨tries_of_follow h, follow_undo h, tries_of_follow (follow_undo h)⟩
  · intro w₁ o w₂ f _ hf
    refine ⟨?_, fun m hm line => ?_⟩
    · rw [tries_append, tries, hf]
      rfl
    · rw [m.perform_operation, hm, hf]
      rfl

/-- A way to both ends of the range of a cell and back, and a count past the greatest cell. -/
theorem Tape.follow_invertible_ends :
    let t : Tape := ⟨[], 2147483646, [-2147483647]⟩
    let u : Tape := ⟨[], 2147483647, [-2147483648]⟩
    let w : List Operation := [.increment, .forward, .decrement, .back]
    t.follow w = .ok u ∧ u.follow [.forward, .increment, .back, .decrement] = .ok t ∧
      (t.tries (w ++ [.increment])).1 = u ∧
      (Machine.ofTape u).perform .increment 0 =
        (Machine.ofTape u, .fail { cause := .overflow }) ∧
      u.follow (Operation.undo (t.tries (w ++ [.increment])).2) = .ok t := by
  intro t u w
  have ht : t.tries w = (u, w) := by decide
  have hw : t.follow w = .ok u := by
    have h := t.follow_tries w
    rwa [ht] at h
  have hf : Operation.increment.apply (t.tries w).1 = .error { cause := .overflow } := by
    have hs : Cell.succ? u.here = none := by decide
    rw [ht]
    simp only [Operation.apply, increment, hs]
  obtain ⟨hall, -, -⟩ := follow_invertible t w
  obtain ⟨-, hone, hsome⟩ := follow_invertible t (w ++ [.increment])
  obtain ⟨hs, hm⟩ := hone w .increment [] _ rfl hf
  rw [ht] at hs hm
  rw [hs] at hsome
  exact ⟨hw, (hall u hw).2.1, hs, hm _ rfl 0, hsome⟩

end MooCode
