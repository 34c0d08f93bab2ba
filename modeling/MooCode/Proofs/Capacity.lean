/-
  Moo-code — tapes with more cells.

  * `Machine.widen d m`: the machine `m` with `d` more cells after its last one, all zero.
  * `perform_widen`: an instruction does the same on the wider tape unless it moves the
    pointer off the narrower one; `execute_widen` and `calls_widen` say this of slices and of
    calls.
  * `Machine.calls_larger`: a run that fits on a tape does not see how long the tape is.
-/
import MooCode.Proofs.Sound

namespace MooCode

/-- The fault of a pointer moved past the last cell. -/
def Fault.PastLastCell (f : Fault) : Prop :=
  f.cause = .outOfBounds ∧ f.detail = "POINTER PAST LAST CELL"

namespace Tape

/-- The tape with `d` more cells after the last one, all zero. -/
def widen (d : Nat) (t : Tape) : Tape :=
  { t with right := t.right ++ List.replicate d 0 }

theorem cells_widen (d : Nat) (t : Tape) :
    (t.widen d).cells = t.cells ++ List.replicate d 0 := by
  simp [cells, widen]

theorem zeros_widen (n d : Nat) : (zeros n).widen d = zeros (n + d) := by
  simp [zeros, widen]

theorem clear_widen (d : Nat) (t : Tape) : (t.widen d).clear = t.clear.widen d := by
  simp [clear, widen, zeros, Nat.add_assoc]

theorem back_widen (d : Nat) (t : Tape) : (t.widen d).back = t.back.map (widen d) := by
  rcases t with ⟨_ | ⟨l, left⟩, here, right⟩ <;> rfl

theorem increment_widen (d : Nat) (t : Tape) :
    (t.widen d).increment = t.increment.map (widen d) := by
  have hh : (t.widen d).here = t.here := rfl
  rw [increment, increment, hh]
  cases Cell.succ? t.here <;> rfl

theorem decrement_widen (d : Nat) (t : Tape) :
    (t.widen d).decrement = t.decrement.map (widen d) := by
  have hh : (t.widen d).here = t.here := rfl
  rw [decrement, decrement, hh]
  cases Cell.pred? t.here <;> rfl

/-- Only a move off the narrower tape comes out in another way on the wider one. -/
theorem forward_widen (d : Nat) {t : Tape}
    (h : ∀ f, t.forward = .error f → ¬ f.PastLastCell) :
    (t.widen d).forward = t.forward.map (widen d) := by
  rcases t with ⟨left, here, _ | ⟨r, right⟩⟩
  · exact absurd ⟨rfl, rfl⟩ (h _ rfl)
  · rfl

end Tape

namespace Machine

/-- The machine with `d` more cells after the last one, all zero. -/
def widen (d : Nat) (m : Machine) : Machine :=
  { m with tape := m.tape.widen d }

section
variable (d : Nat) (m : Machine)

theorem here_widen : (m.widen d).tape.here = m.tape.here :=
  rfl

theorem register_widen : (m.widen d).register = m.register :=
  rfl

theorem program_widen : (m.widen d).program = m.program :=
  rfl

theorem status_widen : (m.widen d).status = m.status :=
  rfl

end

/-! ## Instructions -/

theorem read_widen (d : Nat) (m : Machine) (r : Request) :
    (m.widen d).read r = ((m.read r).1.widen d, (m.read r).2) :=
  read_map (widen d) rfl rfl (fun _ => rfl) (fun _ _ => rfl) r

theorem demand_widen (d : Nat) (m : Machine) (r : Request) :
    (m.widen d).demand r = ((m.demand r).1.widen d, (m.demand r).2) := by
  simp only [demand, read_widen]
  rcases m.read r with ⟨m', _ | _ | f⟩ <;> rfl

theorem withTape_widen (d : Nat) (m : Machine) (t : Except Fault Tape) :
    (m.widen d).withTape (t.map (.widen d)) = ((m.withTape t).1.widen d, (m.withTape t).2) := by
  cases t <;> rfl

theorem jump_widen (d : Nat) (m : Machine) (line : Nat) :
    (m.widen d).jump line = ((m.jump line).1.widen d, (m.jump line).2) := by
  rw [jump, jump, program_widen]
  cases m.program.goto line <;> rfl

/-- **An instruction that does not move the pointer past the last cell does the same on a
    wider tape.** -/
theorem perform_widen (d : Nat) {m : Machine} {i : Instruction} {line : Nat}
    (h : ∀ f, (m.perform i line).2 = .fail f → ¬ f.PastLastCell) :
    (m.widen d).perform i line = ((m.perform i line).1.widen d, (m.perform i line).2) := by
  cases i with
  | jumpBack =>
    simp only [perform, program_widen]
    rcases m.program.loopStart line with _ | mark
    · rfl
    · exact jump_widen d m mark
  | left =>
    show (m.widen d).withTape (m.tape.widen d).back = _
    rw [Tape.back_widen]
    exact withTape_widen d m _
  | right =>
    -- the only instruction that sees where the tape ends
    have hf : ∀ f, m.tape.forward = .error f → ¬ f.PastLastCell := by
      intro f hf
      exact h f (by simp only [perform, hf, withTape])
    show (m.widen d).withTape (m.tape.widen d).forward = _
    rw [Tape.forward_widen d hf]
    exact withTape_widen d m _
  | decrement =>
    show (m.widen d).withTape (m.tape.widen d).decrement = _
    rw [Tape.decrement_widen]
    exact withTape_widen d m _
  | increment =>
    show (m.widen d).withTape (m.tape.widen d).increment = _
    rw [Tape.increment_widen]
    exact withTape_widen d m _
  | exec | clear | printInt | halt => rfl
  | character =>
    by_cases h0 : m.tape.here = 0
    · simp only [perform, here_widen, h0, if_true]
      exact demand_widen d m _
    · simp only [perform, here_widen, h0, if_false, printChar]
      cases Cell.toChar? m.tape.here <;> rfl
  | mark =>
    by_cases h0 : m.tape.here = 0
    · simp only [perform, here_widen, program_widen, h0, if_true]
      rcases m.program.loopExit line with _ | resume
      · rfl
      · exact jump_widen d m resume
    · simp only [perform, here_widen, h0, if_false]
  | transfer =>
    by_cases h0 : m.register = 0
    · simp only [perform, register_widen, h0, if_true]
      rfl
    · simp only [perform, register_widen, h0, if_false]
      rfl
  | readInt => exact demand_widen d m _

/-! ## Slices -/

theorem settle_widen (d : Nat) (m : Machine) (line : Nat) (e : Effect) :
    (m.widen d).settle line e = ((m.settle line e).1.widen d, (m.settle line e).2) := by
  cases e <;> rfl

theorem cycle_widen (d : Nat) {m : Machine}
    (h : ∀ f, m.cycle.2 = some (.failed f) → ¬ f.PastLastCell) :
    (m.widen d).cycle = (m.cycle.1.widen d, m.cycle.2) := by
  have hp : ∀ f, m.performed.2 = .fail f → ¬ f.PastLastCell := by
    intro f hf hpast
    refine h (f.inLine m.program.cursor) ?_ hpast
    rw [cycle_eq, hf]
    rfl
  have hw : (m.widen d).performed = (m.performed.1.widen d, m.performed.2) := perform_widen d hp
  rw [cycle_eq, cycle_eq, hw]
  exact settle_widen d _ _ _

theorem advance_widen (d : Nat) {n : Nat} {m : Machine}
    (h : ∀ f, (advance n m).2 = .failed f → ¬ f.PastLastCell) :
    advance n (m.widen d) = ((advance n m).1.widen d, (advance n m).2) := by
  induction n generalizing m with
  | zero => rfl
  | succ n ih =>
    simp only [advance] at h ⊢
    rcases hc : m.cycle with ⟨m₁, _ | e⟩ <;> rw [hc] at h
    · rw [cycle_widen d (by simp [hc]), hc]
      exact ih h
    · have hce : ∀ f, m.cycle.2 = some (.failed f) → ¬ f.PastLastCell := by
        intro f hf
        rw [hc] at hf
        exact h f (Option.some.inj hf)
      rw [cycle_widen d hce, hc]

/-- A slice that does not move the pointer past the last cell is the same on a wider
    tape. -/
theorem execute_widen (d : Nat) {m : Machine} {n : Nat}
    (h : ∀ f, (m.execute n).2 = .failed f → ¬ f.PastLastCell) :
    (m.widen d).execute n = ((m.execute n).1.widen d, (m.execute n).2) := by
  rcases m.execute_cases with ⟨hs, hx⟩ | ⟨hs, hx⟩ |
    ⟨r, line, hs, ⟨m₁, hr, hx⟩ | ⟨hr, hx⟩ | ⟨m₁, f, hr, hx⟩⟩ <;> rw [hx] at h ⊢
  · simp only [execute, status_widen, hs]
  · simp only [execute, status_widen, hs]
    exact advance_widen d h
  · simp only [execute, status_widen, hs, read_widen, hr]
    exact advance_widen d h
  · simp only [execute, status_widen, hs, read_widen, hr]
  · simp only [execute, status_widen, hs, read_widen, hr]
    rfl

/-! ## Calls -/

theorem attempt_widen (d : Nat) (m : Machine) (a : Except Fault Machine) :
    (m.widen d).attempt (a.map (widen d)) = ((m.attempt a).1.widen d, (m.attempt a).2) := by
  cases a <;> rfl

theorem reset_widen (d : Nat) (m : Machine) : (m.widen d).reset = m.reset.map (widen d) := by
  rw [reset, reset, isActive, isActive, status_widen]
  split
  · rfl
  · simp only [widen, Tape.clear_widen, Except.map]

theorem start_widen (d : Nat) (m : Machine) (text : String) :
    (m.widen d).start text = (m.start text).map (widen d) := by
  rw [start, start, isActive, isActive, status_widen]
  split <;> rfl

theorem call_widen (d : Nat) {m : Machine} {c : Call}
    (h : ∀ f, (m.call c).2 = .event (.failed f) → ¬ f.PastLastCell) :
    (m.widen d).call c = ((m.call c).1.widen d, (m.call c).2) := by
  cases c with
  | start text => simp only [call, start_widen, attempt_widen]
  | reset => simp only [call, reset_widen, attempt_widen]
  | enter text | closeInput => rfl
  | execute n =>
    have hx : ∀ f, (m.execute n).2 = .failed f → ¬ f.PastLastCell := by
      intro f hf
      exact h f (congrArg Reply.event hf)
    simp only [call, execute_widen d hx]

/-- Calls that do not move the pointer past the last cell are the same on a wider tape. -/
theorem calls_widen (d : Nat) {m : Machine} {cs : List Call}
    (h : ∀ f, .event (.failed f) ∈ (m.calls cs).2 → ¬ f.PastLastCell) :
    (m.widen d).calls cs = ((m.calls cs).1.widen d, (m.calls cs).2) := by
  induction cs generalizing m with
  | nil => rfl
  | cons c cs ih =>
    have hc : ∀ f, (m.call c).2 = .event (.failed f) → ¬ f.PastLastCell := by
      intro f hf
      exact h f (hf ▸ List.mem_cons_self)
    have hcs : ∀ f, .event (.failed f) ∈ ((m.call c).1.calls cs).2 → ¬ f.PastLastCell := by
      intro f hf
      exact h f (List.mem_cons_of_mem _ hf)
    simp only [calls, call_widen d hc, ih hcs]

/-- **A run that fits on a tape does not see how long the tape is.**  The same calls to two
    fresh machines, one with at least as many cells as the other: unless a run moves the
    pointer past the last cell of the smaller machine, the answers are the same, and
    then the machines differ in nothing but zeros after the cells of the smaller one. -/
theorem calls_larger {capacity capacity' : Nat} {m m' : Machine}
    (hm : Machine.blank capacity = .ok m) (hm' : Machine.blank capacity' = .ok m')
    (hle : capacity ≤ capacity') {cs : List Call}
    (h : ∀ f, .event (.failed f) ∈ (m.calls cs).2 → ¬ f.PastLastCell) :
    (m'.calls cs).2 = (m.calls cs).2 ∧
    (m'.calls cs).1.program = (m.calls cs).1.program ∧
    (m'.calls cs).1.tape.pointer = (m.calls cs).1.tape.pointer ∧
    (m'.calls cs).1.register = (m.calls cs).1.register ∧
    (m'.calls cs).1.status = (m.calls cs).1.status ∧
    (m'.calls cs).1.input = (m.calls cs).1.input ∧
    (m'.calls cs).1.closed = (m.calls cs).1.closed ∧
    (m'.calls cs).1.tape.cells.take capacity = (m.calls cs).1.tape.cells ∧
    (m'.calls cs).1.tape.cells.drop capacity = List.replicate (capacity' - capacity) 0 := by
  have hs := (Fresh.blank hm).sound.calls cs
  obtain ⟨n, hn, rfl⟩ := (Fresh.blank hm).eq
  obtain ⟨n', hn', rfl⟩ := (Fresh.blank hm').eq
  have hd : ofTape (.zeros n') = (ofTape (.zeros n)).widen (capacity' - capacity) := by
    have hadd : n' = n + (capacity' - capacity) := by omega
    have hz : Tape.zeros n' = (Tape.zeros n).widen (capacity' - capacity) := by
      rw [Tape.zeros_widen, ← hadd]
    rw [hz]
    rfl
  have hl : ((ofTape (.zeros n)).calls cs).1.tape.cells.length = capacity := by
    rw [Tape.length_cells, hs.capacity_eq]
  rw [hd, calls_widen _ h]
  refine ⟨rfl, rfl, rfl, rfl, rfl, rfl, rfl, ?_, ?_⟩
  · show (Tape.cells (.widen _ _)).take capacity = _
    rw [Tape.cells_widen, ← hl, List.take_left]
  · show (Tape.cells (.widen _ _)).drop capacity = _
    rw [Tape.cells_widen, ← hl, List.drop_left, hl]

/-- Two and five cells: a run that works on the last of the two, with one instruction performed
    from its cell, and a run that moves the pointer below the first cell. -/
theorem calls_larger_last_cell :
    let m := ofTape (.zeros 1)
    let m' := ofTape (.zeros 4)
    let cs := [.start "moO MoO MoO MMM MOo mOO OOM", .execute 9, .execute 9, .start "mOo",
      .execute 9]
    Machine.blank 2 = .ok m ∧ Machine.blank 5 = .ok m' ∧
      (m.calls cs).2 = [.done, .event (.print "0"), .event .ended, .done,
        .event (.failed ⟨.outOfBounds, some 0, "POINTER BELOW FIRST CELL"⟩)] ∧
      (m'.calls cs).2 = (m.calls cs).2 ∧
      (m'.calls cs).1.tape.cells.take 2 = (m.calls cs).1.tape.cells ∧
      (m'.calls cs).1.tape.cells.drop 2 = [0, 0, 0] := by
  intro m m' cs
  have hr : (m.calls cs).2 = [.done, .event (.print "0"), .event .ended, .done,
      .event (.failed ⟨.outOfBounds, some 0, "POINTER BELOW FIRST CELL"⟩)] := by decide
  have hf : ∀ f, .event (.failed f) ∈ (m.calls cs).2 → ¬ f.PastLastCell := by
    intro f hf hp
    rw [hr] at hf
    have hb : f = ⟨.outOfBounds, some 0, "POINTER BELOW FIRST CELL"⟩ := by simpa using hf
    subst hb
    exact absurd hp.2 (by decide)
  obtain ⟨ha, -, -, -, -, -, -, ht, hd⟩ := calls_larger (show Machine.blank 2 = .ok m from rfl)
    (show Machine.blank 5 = .ok m' from rfl) (by decide) hf
  exact ⟨rfl, rfl, hr, ha, ht, hd⟩

end Machine

end MooCode
