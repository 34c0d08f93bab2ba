/-
  Moo-code — execute instructions.

  An execute instruction is the instruction whose code is in the current cell, written in its
  place.

  * `Instruction.ofCode_eq_iff`: the instruction that a cell stands for is the one with that code.
  * `Machine.dispatchWithin line depth i`: what `i` does when an execute instruction hands on to
    what it stands for, at most `depth` times.  `dispatchWithin_one`: once is always enough.
  * `Program.replace line i`, `Machine.replace line i`: another instruction in one line.
    `loopStart_replace`: a return finds its marker as before if neither instruction is a marker.
  * `Machine.cycle_replace`: the cycle of an execute instruction is that of the instruction which
    it stands for, and `Machine.exec_inlined`: so is what comes of it.
-/
import MooCode.Machine.Journal
import MooCode.Proofs.Searches
import MooCode.Proofs.Sound
import MooCode.Proofs.Straight

namespace MooCode

/-! ## Codes -/

namespace Instruction

/-- A cell is one of the twelve codes or stands for `halt`. -/
theorem ofCode_cases (c : Cell) :
    (∃ n < 12, c = Int32.ofNat n) ∨ ((c.toInt < 0 ∨ 11 < c.toInt) ∧ ofCode c = halt) := by
  by_cases h : 0 ≤ c.toInt ∧ c.toInt < 12
  · refine Or.inl ⟨c.toInt.toNat, by omega, ?_⟩
    rw [← Int32.toInt_inj, Int32.toInt_ofNat_of_lt (by omega), Int.toNat_of_nonneg h.1]
  · refine Or.inr ⟨by omega, ?_⟩
    unfold ofCode
    split
    · rw [List.getD_eq_getElem?_getD,
        List.getElem?_eq_none (show 12 ≤ c.toInt.toNat by omega)]
      rfl
    · rfl

theorem ofCode_eq_halt {c : Cell} (h : c.toInt < 0 ∨ 11 < c.toInt) : ofCode c = halt := by
  obtain ⟨n, hn, rfl⟩ | ⟨-, hc⟩ := ofCode_cases c
  · rw [Int32.toInt_ofNat_of_lt (by omega)] at h
    omega
  · exact hc

theorem code?_lt {c : Cell} {i : Instruction} (h : i.code? = some c) :
    0 ≤ c.toInt ∧ c.toInt < 12 := by
  obtain ⟨n, hn, rfl⟩ := Option.map_eq_some_iff.1 h
  obtain ⟨hlt, -⟩ := List.idxOf?_eq_some_iff.1 hn
  have hlt : n < 12 := hlt
  rw [Int32.toInt_ofNat_of_lt (by omega)]
  omega

/-- The instruction that a cell stands for is the one with that code. -/
theorem ofCode_eq_iff {c d : Cell} {i : Instruction} (hd : i.code? = some d) :
    ofCode c = i ↔ c = d := by
  have hi : i ≠ halt := by
    rintro rfl
    cases hd
  have h : ofCode c = i ↔ i.code? = some c := by
    obtain ⟨n, hn, rfl⟩ | ⟨hc, h⟩ := ofCode_cases c
    · revert n
      cases i with
      | halt => exact absurd rfl hi
      | _ => decide
    · rw [h]
      refine iff_of_false hi.symm fun hs => ?_
      have hb := code?_lt hs
      omega
  rw [h, hd, Option.some_inj, eq_comm]

/-- An instruction with a code stands for itself, or an execute instruction for it. -/
theorem resolve_eq_iff {i j : Instruction} {c d : Cell} (hd : j.code? = some d) :
    i.resolve c = j ↔ (i ≠ exec ∧ i = j) ∨ (i = exec ∧ c = d) := by
  unfold resolve
  split
  · next hi => simp [hi, ofCode_eq_iff hd]
  · next hi => simp [hi]

end Instruction

/-! ## Handing on -/

namespace Machine

/-- What the instruction `i` in the line `line` does when an execute instruction hands on to what
    it stands for, at most `depth` times.  One that finds its own code does not hand on. -/
def dispatchWithin (m : Machine) (line : Nat) :
    (depth : Nat) → (i : Instruction) → Option (Machine × Effect)
  | depth, .exec =>
    if Instruction.ofCode m.tape.here = .exec then some (m, .fail { cause := .selfReference })
    else
      match depth with
      | 0 => none
      | depth + 1 => m.dispatchWithin line depth (Instruction.ofCode m.tape.here)
  | _, i => some (m.perform i line)

theorem dispatchWithin_of_ne {i : Instruction} (hi : i ≠ .exec) (m : Machine) (line depth : Nat) :
    m.dispatchWithin line depth i = some (m.perform i line) := by
  cases i with
  | exec => exact absurd rfl hi
  | _ => rw [dispatchWithin]; simp

/-- **What an execute instruction stands for hands on no further.** -/
theorem dispatchWithin_one (m : Machine) (line : Nat) (i : Instruction) :
    m.dispatchWithin line 1 i = some (m.dispatch i line) := by
  by_cases hi : i = .exec
  · subst hi
    rw [dispatchWithin, dispatch, Instruction.resolve, if_pos rfl]
    by_cases hx : Instruction.ofCode m.tape.here = .exec
    · rw [if_pos hx, hx]
      rfl
    · rw [if_neg hx]
      exact dispatchWithin_of_ne hx m line 0
  · rw [dispatchWithin_of_ne hi, dispatch, Instruction.resolve, if_neg hi]

end Machine

/-! ## Another instruction in one line -/

namespace Program

/-- The program with the instruction `i` in the line `line`. -/
def replace (p : Program) (line : Nat) (i : Instruction) : Program :=
  { p with instructions := p.instructions.setIfInBounds line i }

section
variable (p : Program) (line : Nat) (i : Instruction)

theorem length_replace : (p.replace line i).length = p.length :=
  Array.size_setIfInBounds

theorem instruction?_replace {j : Instruction} (h : p.instruction? line = some j) (l : Nat) :
    (p.replace line i).instruction? l = if l = line then some i else p.instruction? l := by
  have hlt : line < p.instructions.size := lt_length_of_instruction? h
  rw [instruction?, replace, Array.getElem?_setIfInBounds]
  by_cases hl : line = l
  · subst hl
    rw [if_pos rfl, if_pos hlt, if_pos rfl]
  · rw [if_neg hl, if_neg (Ne.symm hl)]
    rfl

theorem advance_replace : (p.replace line i).advance = p.advance.replace line i := by
  have hc : (p.replace line i).cursor = p.cursor := rfl
  rw [advance, advance, length_replace, hc]
  split <;> rfl

end

section
variable {p : Program} {line : Nat} {i j : Instruction} (h : p.instruction? line = some j)
  (hj : j ≠ .mark) (hi : i ≠ .mark)
include h hj hi

theorem opensLoop_replace (l : Nat) : (p.replace line i).opensLoop l = p.opensLoop l := by
  -- no line is a marker in one of the two programs only
  have hm : ∀ l, (p.replace line i).instruction? l = some .mark ↔
      p.instruction? l = some .mark := by
    intro l
    rw [instruction?_replace p line i h]
    by_cases hl : l = line
    · subst hl
      rw [if_pos rfl, h]
      simp [hi, hj]
    · rw [if_neg hl]
  rw [Bool.eq_iff_iff, opensLoop_iff, opensLoop_iff, Ne, Ne, hm, hm]

theorem lastOpening_replace (n : Nat) : (p.replace line i).lastOpening n = p.lastOpening n := by
  induction n with
  | zero => rfl
  | succ n ih => rw [lastOpening, lastOpening, opensLoop_replace h hj hi, ih]

/-- **A return finds its marker as before**, if no marker is replaced and none is put in. -/
theorem loopStart_replace (l : Nat) : (p.replace line i).loopStart l = p.loopStart l := by
  rw [loopStart, loopStart, length_replace, lastOpening_replace h hj hi]

end

end Program

namespace Machine

/-- The machine with the instruction `i` in the line `line` of its program. -/
def replace (m : Machine) (line : Nat) (i : Instruction) : Machine :=
  m.withRun (m.program.replace line i) m.status

/-! ## Cycles -/

section
variable {m : Machine} {line : Nat} {i : Instruction}

theorem fetched_replace (m : Machine) (line : Nat) (i : Instruction) :
    (m.replace line i).fetched = m.fetched.replace line i := by
  have h : (m.replace line i).program.advance = m.program.advance.replace line i :=
    m.program.advance_replace line i
  rw [fetched, h]
  rfl

theorem settle_replace (m : Machine) (line l : Nat) (i : Instruction) (e : Effect) :
    (m.replace line i).settle l e = ((m.settle l e).1.replace line i, (m.settle l e).2) := by
  cases e <;> rfl

theorem jump_replace {mark : Nat} (h : mark < m.program.length) :
    (m.replace line i).jump mark = ((m.jump mark).1.replace line i, (m.jump mark).2) := by
  have h' : mark < (m.replace line i).program.length := by
    have hl : (m.replace line i).program.length = m.program.length :=
      Program.length_replace m.program line i
    omega
  rw [jump_of_lt h, jump_of_lt h']
  rfl

theorem upcoming_of_exec (h : m.program.instruction? m.program.cursor = some .exec) :
    m.upcoming = .ofCode m.tape.here := by
  rw [upcoming, Program.peek, h, Option.getD_some, Instruction.resolve, if_pos rfl]

/-- **An instruction does the same where it stands for itself as through an execute
    instruction**, unless it is a marker on a zero cell. -/
theorem perform_replace (h : m.program.instruction? line = some .exec)
    (h0 : i = .mark → m.tape.here ≠ 0) : (m.replace line i).perform i line =
      ((m.perform i line).1.replace line i, (m.perform i line).2) := by
  have hprog : (m.replace line i).program = m.program.replace line i := rfl
  have hhere : (m.replace line i).tape.here = m.tape.here := rfl
  cases hi : i.isPlain with
  | true =>
    have hl := perform_withRun hi m (m.program.replace line i) m.status line
    rw [perform_plain hi m line]
    exact hl
  | false =>
    cases i with
    | jumpBack =>
      -- the search passes the line itself, which holds no marker either way
      have hl := Program.loopStart_replace h (by decide) (i := .jumpBack) (by decide) line
      simp only [perform, hprog, hl]
      rcases hs : m.program.loopStart line with _ | mark
      · rfl
      · exact jump_replace (Program.loopStart_lt hs)
    | mark => simp only [perform, hhere, h0 rfl, if_false]
    | exec | halt => rfl
    | _ => cases hi

/-- **The cycle of an execute instruction is that of the instruction it stands for.** -/
theorem cycle_replace (h : m.program.instruction? m.program.cursor = some .exec)
    (hi : Instruction.ofCode m.tape.here = i) (hx : i ≠ .exec) :
    (m.replace m.program.cursor i).cycle =
      (m.cycle.1.replace m.program.cursor i, m.cycle.2) := by
  have hm : i = .mark → m.fetched.tape.here ≠ 0 := by
    rintro rfl h0
    have h0 : m.tape.here = 0 := h0
    rw [h0] at hi
    cases hi
  have hf : m.fetched.program.instruction? m.program.cursor = some .exec := by
    rw [← h]
    exact congrArg (·[m.program.cursor]?) (Program.instructions_advance m.program)
  have hu : m.upcoming = i := by rw [upcoming_of_exec h, hi]
  have hu' : (m.replace m.program.cursor i).upcoming = i := by
    have hl := Program.instruction?_replace m.program m.program.cursor i h m.program.cursor
    have hp : (m.replace m.program.cursor i).program.peek = i := by
      rw [if_pos rfl] at hl
      exact congrArg (Option.getD · .halt) hl
    rw [upcoming, hp, Instruction.resolve, if_neg hx]
  have hp : (m.replace m.program.cursor i).performed =
      (m.performed.1.replace m.program.cursor i, m.performed.2) := by
    rw [performed, performed, fetched_replace, hu, hu']
    exact perform_replace hf hm
  rw [cycle_eq, hp]
  exact settle_replace _ _ _ _ _

/-- No instruction but a jump moves the cursor. -/
theorem perform_program (hj : i ≠ .jumpBack) (hm : i = .mark → m.tape.here ≠ 0) :
    (m.perform i line).1.program = m.program := by
  cases hi : i.isPlain with
  | true => rw [perform_plain hi]; rfl
  | false =>
    cases i with
    | jumpBack => exact absurd rfl hj
    | mark => simp only [perform, hm rfl, if_false]
    | exec | halt => rfl
    | _ => cases hi

theorem settle_program (m : Machine) (line : Nat) (e : Effect) :
    (m.settle line e).1.program = m.program := by
  cases e <;> rfl

/-! ## Slices -/

/-- What is read does not depend on the program. -/
theorem execute_zero_replace (m : Machine) (line : Nat) (i : Instruction) :
    (m.replace line i).execute 0 = ((m.execute 0).1.replace line i, (m.execute 0).2) := by
  have hst : (m.replace line i).status = m.status := rfl
  have hr : ∀ r, (m.replace line i).read r = ((m.read r).1.replace line i, (m.read r).2) :=
    read_map (·.replace line i) rfl rfl (fun _ => rfl) (fun _ _ => rfl)
  rcases hs : m.status with _ | _ | ⟨r, l⟩
  · simp only [execute, hst, hs]
  · simp only [execute, hst, hs]
    rfl
  · simp only [execute, hst, hs, hr]
    rcases m.read r with ⟨m', _ | _ | f⟩ <;> rfl

end

/-! ## Execute instructions -/

section
variable {m : Machine} (hs : m.status = .running)
  (hx : m.program.instruction? m.program.cursor = some .exec)
include hx

theorem cycle_exec {i : Instruction} (hi : Instruction.ofCode m.tape.here = i) : m.cycle =
    (m.fetched.perform i m.program.cursor).1.settle m.program.cursor
      (m.fetched.perform i m.program.cursor).2 := by
  rw [cycle_eq, performed, upcoming_of_exec hx, hi]

include hs

theorem exec_self (hv : m.tape.here = 3) : m.execute 1 =
    ({ m.fetched with status := .idle },
      .failed { cause := .selfReference, line := m.program.cursor }) := by
  have hi : Instruction.ofCode m.tape.here = .exec := (Instruction.ofCode_eq_iff rfl).2 hv
  rw [execute_one hs, cycle_exec hx hi]
  rfl

theorem exec_replace {i : Instruction} (hi : Instruction.ofCode m.tape.here = i)
    (hv : m.tape.here ≠ 3) : (m.replace m.program.cursor i).execute 1 =
      ((m.execute 1).1.replace m.program.cursor i, (m.execute 1).2) := by
  have hne : i ≠ .exec := by
    rw [← hi]
    exact mt (Instruction.ofCode_eq_iff rfl).1 hv
  rw [execute_one hs, execute_one (m := m.replace _ _) hs, cycle_replace hx hi hne]

/-- The code of a marker is not zero, so the marker does not skip. -/
theorem exec_mark (hi : Instruction.ofCode m.tape.here = .mark) :
    m.execute 1 = (m.fetched, .running) := by
  have hf : m.fetched.tape.here = 7 := (Instruction.ofCode_eq_iff rfl).1 hi
  rw [execute_one hs, cycle_exec hx hi, perform, hf]
  rfl

/-- Nor is that of a character instruction, which prints it. -/
theorem exec_character (hi : Instruction.ofCode m.tape.here = .character) :
    m.execute 1 = (m.fetched, .print (String.singleton (Char.ofNat 4))) := by
  have hf : m.fetched.tape.here = 4 := (Instruction.ofCode_eq_iff rfl).1 hi
  rw [execute_one hs, cycle_exec hx hi, perform, printChar, hf]
  rfl

/-- A run goes elsewhere through an execute instruction only on a zero cell. -/
theorem exec_elsewhere (hp : (m.execute 1).1.program ≠ m.fetched.program) : m.tape.here = 0 := by
  by_contra h0
  refine hp ?_
  rw [execute_one hs, cycle_exec hx rfl, settle_program]
  refine perform_program (fun hj => h0 ?_) fun _ => h0
  exact (Instruction.ofCode_eq_iff rfl).1 hj

end

/-- **An execute instruction is the instruction whose code is in the current cell, written in its
    place.**  One that finds its own code gives the run up.  Any other leads to the same event and
    the same machine as that instruction does, `halt` for a cell that is no code, also when it
    waits and the input comes later.  It hands on once at most.  So a marker that is reached this
    way does not skip, a character instruction does not read, and nothing but a zero cell makes the
    run go elsewhere. -/
theorem exec_inlined {m : Machine} (hs : m.status = .running)
    (hx : m.program.instruction? m.program.cursor = some .exec) :
    let line := m.program.cursor
    let i := Instruction.ofCode m.tape.here
    (m.tape.here = 3 → m.execute 1 =
      ({ m.fetched with status := .idle }, .failed { cause := .selfReference, line })) ∧
    (m.tape.here ≠ 3 →
      (m.replace line i).execute 1 = ((m.execute 1).1.replace line i, (m.execute 1).2) ∧
      ∀ input closed, (((m.execute 1).1.withInput input closed).replace line i).execute 0 =
        ((((m.execute 1).1.withInput input closed).execute 0).1.replace line i,
          (((m.execute 1).1.withInput input closed).execute 0).2)) ∧
    (m.tape.here.toInt < 0 ∨ 11 < m.tape.here.toInt → i = .halt) ∧
    (∀ j, m.fetched.dispatchWithin line 1 j = some (m.fetched.dispatch j line)) ∧
    m.dispatches.length ≤ 2 ∧
    (i = .mark → m.execute 1 = (m.fetched, .running)) ∧
    (i = .character →
      m.execute 1 = (m.fetched, .print (String.singleton (Char.ofNat 4)))) ∧
    ((m.execute 1).1.program ≠ m.fetched.program → m.tape.here = 0) := by
  refine ⟨exec_self hs hx, fun hv => ⟨exec_replace hs hx rfl hv, ?_⟩,
    Instruction.ofCode_eq_halt, m.fetched.dispatchWithin_one m.program.cursor, ?_, exec_mark hs hx,
    exec_character hs hx, exec_elsewhere hs hx⟩
  · intro input closed
    exact execute_zero_replace _ _ _
  · simp only [dispatches]
    split <;> simp

/-- A read that an execute instruction comes to wait for is the read that is written in its place,
    also when its line has been entered. -/
theorem exec_inlined_waiting :
    let m := ((ofTape (.zeros 0)).calls [.start "oom mOO", .enter "11", .execute 1]).1
    let m' := (m.execute 1).1.enter "-5"
    (m.execute 1).2 = .input .integer ∧
      (m.replace 1 .readInt).execute 1 = ((m.execute 1).1.replace 1 .readInt, .input .integer) ∧
      (m'.execute 0).1.tape.cells = [-5] ∧
      (m'.replace 1 .readInt).execute 0 = ((m'.execute 0).1.replace 1 .readInt, .running) := by
  intro m m'
  have he : (m.execute 1).2 = .input .integer := by decide
  have he' : (m'.execute 0).2 = .running := by decide
  obtain ⟨-, h, -⟩ := exec_inlined (m := m) (by decide) (by decide)
  obtain ⟨h₁, h₀⟩ := h (by decide)
  refine ⟨he, ?_, by decide, ?_⟩
  · rw [← he]
    exact h₁
  · rw [← he']
    exact h₀ m'.input false

end Machine

end MooCode
