/-
  Moo-code — programs behind other instructions.

  * `Program.behind pre p`: the program `p` with the instructions `pre` before its own.  If there is
    no marker among them, the two searches find in `p` what they found before, so many lines
    further: `loopStart_behind`, `loopExit_behind`.
  * `Machine.behind pre m`: the machine `m` with its program behind `pre`, and `Event.moved n e`:
    the event `e` with the line of its fault `n` lines further.
  * `perform_behind`, `cycle_behind`, `execute_behind`: instructions, cycles and slices do the same
    in both places, and `finishes_behind`: so do whole runs.
-/
import MooCode.Proofs.Searches
import MooCode.Proofs.Sound
import MooCode.Proofs.Straight

namespace MooCode

namespace Program

/-- The program with the instructions `pre` before its own. -/
def behind (pre : List Instruction) (p : Program) : Program :=
  ⟨(pre ++ p.instructions.toList).toArray, p.cursor + pre.length⟩

section
variable (pre : List Instruction) (p : Program)

theorem length_behind : (p.behind pre).length = p.length + pre.length := by
  simp only [length, behind, List.size_toArray, List.length_append, Array.length_toList]
  omega

theorem instruction?_behind (line : Nat) :
    (p.behind pre).instruction? (line + pre.length) = p.instruction? line := by
  rw [instruction?_eq, instruction?_eq, behind, List.getElem?_append_right (by omega),
    Nat.add_sub_cancel]

theorem peek_behind : (p.behind pre).peek = p.peek := by
  have hc : (p.behind pre).cursor = p.cursor + pre.length := rfl
  rw [peek, peek, hc, instruction?_behind]

theorem advance_behind : (p.behind pre).advance = p.advance.behind pre := by
  have hc : (p.behind pre).cursor = p.cursor + pre.length := rfl
  rw [advance, advance, length_behind, hc]
  by_cases h : p.cursor + 1 < p.length
  · rw [if_pos h, if_pos (by omega), behind, Nat.add_right_comm]
    rfl
  · rw [if_neg h, if_neg (by omega)]

end

/-! ## Searches -/

section
variable {pre : List Instruction} (hm : .mark ∉ pre) (p : Program)
include hm

theorem instruction?_of_lt {line : Nat} (h : line < pre.length) :
    (p.behind pre).instruction? line ≠ some .mark := by
  rw [instruction?_eq, behind, List.getElem?_append_left h]
  intro hl
  exact hm (List.mem_of_getElem? hl)

/-- The first line of the program is behind an instruction that is no marker, as it was behind
    none. -/
theorem opensLoop_behind (line : Nat) :
    (p.behind pre).opensLoop (line + pre.length) = p.opensLoop line := by
  rw [Bool.eq_iff_iff, opensLoop_iff, opensLoop_iff, instruction?_behind]
  refine and_congr_right fun _ => ?_
  obtain _ | line := line
  · rw [Nat.zero_add]
    by_cases h0 : pre.length = 0
    · simp [h0]
    · simp [instruction?_of_lt hm p (show pre.length - 1 < pre.length by omega)]
  · have hl : line + 1 + pre.length - 1 = line + pre.length := by omega
    rw [hl, instruction?_behind, Nat.add_sub_cancel]
    simp

theorem lastOpening_behind (n : Nat) : (p.behind pre).lastOpening (n + pre.length) =
    (p.lastOpening n).map (· + pre.length) := by
  induction n with
  | zero =>
    rw [Nat.zero_add, lastOpening, Option.map_none, Option.eq_none_iff_forall_ne_some]
    intro mark h
    obtain ⟨hlt, ho, -⟩ := lastOpening_eq_some_iff.1 h
    exact instruction?_of_lt hm p hlt (opensLoop_iff.1 ho).1
  | succ n ih =>
    rw [Nat.add_right_comm, lastOpening, lastOpening, opensLoop_behind hm, ih]
    split <;> rfl

/-- **A return finds the marker that it found before.** -/
theorem loopStart_behind (line : Nat) : (p.behind pre).loopStart (line + pre.length) =
    (p.loopStart line).map (· + pre.length) := by
  have hl : min (line + pre.length + 1) (p.length + pre.length) =
      min (line + 1) p.length + pre.length := by omega
  rw [loopStart, loopStart, length_behind, hl, lastOpening_behind hm]

end

section
variable (pre : List Instruction) (p : Program)

theorem afterReturn_behind (n line : Nat) : (p.behind pre).afterReturn n (line + pre.length) =
    (p.afterReturn n line).map (· + pre.length) := by
  induction n generalizing line with
  | zero => rfl
  | succ n ih =>
    have hr := ih (line + 1)
    rw [Nat.add_right_comm] at hr
    rw [afterReturn, afterReturn, instruction?_behind]
    rcases hi : p.instruction? line with _ | i
    · rfl
    · cases i with
      | jumpBack => simp [Nat.add_right_comm]
      | halt => rfl
      | _ => exact hr

/-- **A marker that skips its loop finds the return that it found before.** -/
theorem loopExit_behind (mark : Nat) : (p.behind pre).loopExit (mark + pre.length) =
    (p.loopExit mark).map (· + pre.length) := by
  have h₁ : mark + pre.length + 1 = mark + 1 + pre.length := by omega
  have h₂ : mark + pre.length + 2 = mark + 2 + pre.length := by omega
  have hn : p.length + pre.length - (mark + 2 + pre.length) = p.length - (mark + 2) := by omega
  have hr := afterReturn_behind pre p (p.length - (mark + 2)) (mark + 2)
  rw [loopExit, loopExit, h₁, h₂, instruction?_behind, length_behind, hn]
  rcases hi : p.instruction? (mark + 1) with _ | i
  · rfl
  · cases i with
    | halt => rfl
    | _ => exact hr

end

end Program

/-! ## Machines -/

/-- The same status with the line that is waited in `n` lines further. -/
def Status.moved (n : Nat) : Status → Status
  | waiting r line => waiting r (line + n)
  | s => s

/-- The same event with the line of its fault `n` lines further. -/
def Event.moved (n : Nat) : Event → Event
  | failed f => failed { f with line := f.line.map (· + n) }
  | e => e

namespace Machine

/-- The machine with the instructions `pre` before those of its program. -/
def behind (pre : List Instruction) (m : Machine) : Machine :=
  m.withRun (m.program.behind pre) (m.status.moved pre.length)

section
variable {pre : List Instruction} {m : Machine}

theorem read_behind (pre : List Instruction) (m : Machine) (r : Request) :
    (m.behind pre).read r = ((m.read r).1.behind pre, (m.read r).2) :=
  read_map (behind pre) rfl rfl (fun _ => rfl) (fun _ _ => rfl) r

theorem jump_behind {line : Nat} (h : line < m.program.length) :
    (m.behind pre).jump (line + pre.length) = ((m.jump line).1.behind pre, (m.jump line).2) := by
  have h' : line + pre.length < (m.behind pre).program.length := by
    have hl : (m.behind pre).program.length = m.program.length + pre.length :=
      Program.length_behind pre m.program
    omega
  rw [jump_of_lt h, jump_of_lt h']
  rfl

/-- **An instruction does the same behind other instructions**, if there is no marker among
    them. -/
theorem perform_behind (hm : .mark ∉ pre) (hp : m.program.WellFormed) (i : Instruction)
    (line : Nat) : (m.behind pre).perform i (line + pre.length) =
      ((m.perform i line).1.behind pre, (m.perform i line).2) := by
  have hprog : (m.behind pre).program = m.program.behind pre := rfl
  have hhere : (m.behind pre).tape.here = m.tape.here := rfl
  cases hi : i.isPlain with
  | true =>
    have hl := perform_withRun hi m (m.program.behind pre) (m.status.moved pre.length)
      (line + pre.length)
    rw [perform_plain hi m line]
    exact hl
  | false =>
    cases i with
    | jumpBack =>
      simp only [perform, hprog, Program.loopStart_behind hm]
      rcases hs : m.program.loopStart line with _ | mark
      · rfl
      · exact jump_behind (Program.loopStart_lt hs)
    | mark =>
      by_cases h0 : m.tape.here = 0
      · simp only [perform, hprog, hhere, h0, if_true, Program.loopExit_behind]
        rcases hs : m.program.loopExit line with _ | resume
        · rfl
        · exact jump_behind (hp.loopExit_lt hs)
      · simp only [perform, hhere, h0, if_false]
    | exec | halt => rfl
    | _ => cases hi

/-! ## Slices -/

theorem settle_behind (pre : List Instruction) (m : Machine) (line : Nat) (e : Effect) :
    (m.behind pre).settle (line + pre.length) e =
      ((m.settle line e).1.behind pre, (m.settle line e).2.map (.moved pre.length)) := by
  cases e <;> rfl

theorem fetched_behind (pre : List Instruction) (m : Machine) :
    (m.behind pre).fetched = m.fetched.behind pre := by
  have h : (m.behind pre).program.advance = m.program.advance.behind pre :=
    m.program.advance_behind pre
  rw [fetched, h]
  rfl

theorem cycle_behind (hm : .mark ∉ pre) (hp : m.program.WellFormed) : (m.behind pre).cycle =
    (m.cycle.1.behind pre, m.cycle.2.map (.moved pre.length)) := by
  have hu : (m.behind pre).upcoming = m.upcoming := by
    have h : (m.behind pre).program.peek = m.program.peek := m.program.peek_behind pre
    rw [upcoming, h]
    rfl
  have hb : (m.behind pre).performed = (m.performed.1.behind pre, m.performed.2) := by
    rw [performed, fetched_behind, hu]
    exact perform_behind hm (m.fetched_keeps.wellFormed hp) _ _
  rw [cycle_eq, hb]
  exact settle_behind pre _ _ _

theorem advance_behind (hm : .mark ∉ pre) (hp : m.program.WellFormed) (n : Nat) :
    advance n (m.behind pre) =
      ((advance n m).1.behind pre, (advance n m).2.moved pre.length) := by
  induction n generalizing m with
  | zero => rfl
  | succ n ih =>
    simp only [advance, cycle_behind hm hp]
    rcases hc : m.cycle with ⟨m₁, _ | e⟩
    · exact ih ((cycle_keeps hc).wellFormed hp)
    · rfl

/-- **A slice does the same behind other instructions**, if there is no marker among them. -/
theorem execute_behind (hm : .mark ∉ pre) (hp : m.program.WellFormed) (n : Nat) :
    (m.behind pre).execute n =
      ((m.execute n).1.behind pre, (m.execute n).2.moved pre.length) := by
  have hst : (m.behind pre).status = m.status.moved pre.length := rfl
  rcases m.execute_cases with ⟨hs, hx⟩ | ⟨hs, hx⟩ |
    ⟨r, line, hs, ⟨m₁, hr, hx⟩ | ⟨hr, hx⟩ | ⟨m₁, f, hr, hx⟩⟩ <;> rw [hx]
  · simp only [execute, hst, hs, Status.moved]
    rfl
  · simp only [execute, hst, hs, Status.moved]
    exact advance_behind hm hp n
  · simp only [execute, hst, hs, Status.moved, read_behind, hr]
    exact advance_behind (m := { m₁ with status := .running }) hm
      ((read_keeps hr).wellFormed hp) n
  · simp only [execute, hst, hs, Status.moved, read_behind, hr]
    rfl
  · simp only [execute, hst, hs, Status.moved, read_behind, hr]
    rfl

/-! ## Runs -/

/-- What a run leads to behind the instructions `pre`. -/
def Outcome.behind (pre : List Instruction) (o : Outcome) : Outcome :=
  ⟨o.texts, o.event.moved pre.length, o.machine.behind pre⟩

theorem finish_behind (hm : .mark ∉ pre) (hp : m.program.WellFormed) (n : Nat) :
    finish n (m.behind pre) = (finish n m).map (.behind pre) := by
  induction n generalizing m with
  | zero => rfl
  | succ n ih =>
    have hs : Stable (·.program.WellFormed) := ⟨fun hk h => hk.wellFormed h, fun _ h => h⟩
    have hp₁ := hs.execute hp 1
    rw [finish, finish, execute_behind hm hp, ih hp₁]
    cases (m.execute 1).2 with
    | print text => cases finish n (m.execute 1).1 <;> rfl
    | _ => rfl

theorem finishes_behind (hm : .mark ∉ pre) (hp : m.program.WellFormed) {o : Outcome} :
    Finishes (m.behind pre) o ↔ ∃ o', Finishes m o' ∧ o = o'.behind pre := by
  constructor
  · rintro ⟨n, hn⟩
    rw [finish_behind hm hp] at hn
    obtain ⟨o', ho', rfl⟩ := Option.map_eq_some_iff.1 hn
    exact ⟨o', ⟨n, ho'⟩, rfl⟩
  · rintro ⟨o', ⟨n, hn⟩, rfl⟩
    exact ⟨n, by rw [finish_behind hm hp, hn]; rfl⟩

end

end Machine

end MooCode
