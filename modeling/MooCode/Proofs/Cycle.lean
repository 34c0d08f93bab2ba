/-
  Moo-code — what instructions do to a machine.

  * `Machine.Keeps m m'`: the capacity, the instructions, the status and whether more
    input comes are those of `m`; `Machine.perform_keeps` says this of every
    instruction.
  * `Instruction.request? i c`: what the instruction `i` asks the input for when the
    current cell is `c`.  `Machine.perform_of_request`: such an instruction is a demand
    and nothing else; `Machine.perform_withInput`: every other one neither looks at
    the input nor changes it.
  * `Machine.cycle_cases`: a cycle goes on, prints, waits, halts or fails.
-/
import MooCode.Machine.Call
import MooCode.Proofs.Program

namespace MooCode

namespace Tape

@[simp] theorem capacity_clear (t : Tape) : t.clear.capacity = t.capacity := by
  simp only [clear, zeros, capacity, List.length_nil, List.length_replicate]
  omega

/-- A move takes the pointer to a cell of the same row. -/
theorem capacity_of_back {t u : Tape} (h : t.back = .ok u) : u.capacity = t.capacity := by
  rw [← length_cells, (cells_of_back h).1, length_cells]

theorem capacity_of_forward {t u : Tape} (h : t.forward = .ok u) : u.capacity = t.capacity := by
  rw [← length_cells, (cells_of_forward h).1, length_cells]

theorem increment_eq {t u : Tape} (h : t.increment = .ok u) : ∃ v, u = t.set v := by
  unfold increment at h
  split at h
  · cases h; exact ⟨_, rfl⟩
  · cases h

theorem decrement_eq {t u : Tape} (h : t.decrement = .ok u) : ∃ v, u = t.set v := by
  unfold decrement at h
  split at h
  · cases h; exact ⟨_, rfl⟩
  · cases h

end Tape

/-- What the instruction `i` asks the input for when the current cell is `c`. -/
def Instruction.request? (i : Instruction) (c : Cell) : Option Request :=
  match i with
  | .character => if c = 0 then some .char else none
  | .readInt => some .integer
  | _ => none

namespace Machine

/-! ## What instructions leave alone -/

/-- The machine `m'` has the capacity, the instructions and the status of `m`, more
    input comes to it if it comes to `m`, and its cursor is on a line if that of `m`
    is. -/
structure Keeps (m m' : Machine) : Prop where
  capacity : m'.tape.capacity = m.tape.capacity
  instructions : m'.program.instructions = m.program.instructions
  status : m'.status = m.status
  closed : m'.closed = m.closed
  wellFormed : m.program.WellFormed → m'.program.WellFormed

theorem Keeps.refl (m : Machine) : Keeps m m :=
  ⟨rfl, rfl, rfl, rfl, id⟩

theorem Keeps.trans {m₁ m₂ m₃ : Machine} (h : Keeps m₁ m₂) (h' : Keeps m₂ m₃) : Keeps m₁ m₃ :=
  ⟨h'.capacity.trans h.capacity, h'.instructions.trans h.instructions,
    h'.status.trans h.status, h'.closed.trans h.closed, h'.wellFormed ∘ h.wellFormed⟩

/-- An attempt to read stores a value, finds nothing, or uses up a line that is no
    integer. -/
theorem read_cases (m : Machine) (r : Request) :
    (∃ v rest, m.read r = ({ m with tape := m.tape.set v, input := rest }, .taken)) ∨
    (m.closed = false ∧ m.read r = (m, .pending)) ∨
    (m.closed = true ∧ m.read r = (m, .refused { cause := .inputPastEnd })) ∨
    ∃ rest text, m.read r =
      ({ m with input := rest }, .refused { cause := .illegalInput, detail := text }) := by
  have hs : (m.closed = false ∧ m.starve = (m, .pending)) ∨
      (m.closed = true ∧ m.starve = (m, .refused { cause := .inputPastEnd })) := by
    cases hc : m.closed <;> simp [starve, hc]
  cases r with
  | char =>
    show (∃ v rest, m.readChar = _) ∨ (_ ∧ m.readChar = _) ∨ (_ ∧ m.readChar = _) ∨
      ∃ rest text, m.readChar = _
    unfold readChar
    split
    · exact Or.inl ⟨_, _, rfl⟩
    · exact Or.inr (hs.imp_right Or.inl)
  | integer =>
    show (∃ v rest, m.readInteger = _) ∨ (_ ∧ m.readInteger = _) ∨ (_ ∧ m.readInteger = _) ∨
      ∃ rest text, m.readInteger = _
    unfold readInteger
    split
    · next line rest _ =>
      rcases hv : Cell.ofDecimal? (Text.trim line) with _ | v
      · exact Or.inr (Or.inr (Or.inr ⟨rest, _, by simp only [hv]; rfl⟩))
      · exact Or.inl ⟨v, rest, by simp only [hv]⟩
    · exact Or.inr (hs.imp_right Or.inl)

theorem read_keeps {m m' : Machine} {r : Request} {x : Reading} (h : m.read r = (m', x)) :
    Keeps m m' := by
  rcases read_cases m r with ⟨v, rest, hr⟩ | ⟨-, hr⟩ | ⟨-, hr⟩ | ⟨rest, text, hr⟩ <;>
    rw [hr] at h <;> cases h
  · exact ⟨rfl, rfl, rfl, rfl, id⟩
  · exact .refl m
  · exact .refl m
  · exact ⟨rfl, rfl, rfl, rfl, id⟩

/-- A change of the machine that leaves the input alone and commutes with a write to the current
    cell commutes with reads. -/
theorem read_map (φ : Machine → Machine) {m : Machine} (hi : (φ m).input = m.input)
    (hc : (φ m).closed = m.closed)
    (hr : ∀ rest, { φ m with input := rest } = φ { m with input := rest })
    (hs : ∀ v rest, { φ m with tape := (φ m).tape.set v, input := rest } =
      φ { m with tape := m.tape.set v, input := rest }) (r : Request) :
    (φ m).read r = (φ (m.read r).1, (m.read r).2) := by
  have hst : (φ m).starve = (φ m.starve.1, m.starve.2) := by simp only [starve, hc]
  cases r with
  | char =>
    simp only [read, readChar, hi]
    rcases m.input with _ | ⟨c, rest⟩
    · exact hst
    · simp only [hs]
  | integer =>
    have hn : (φ m).nextLine? = m.nextLine? := by rw [nextLine?, nextLine?, hi, hc]
    simp only [read, readInteger, hn]
    rcases m.nextLine? with _ | ⟨line, rest⟩
    · exact hst
    · rcases hv : Cell.ofDecimal? (Text.trim line) with _ | v
      · simp only [hv, hr]
      · simp only [hv, hs]

theorem withTape_keeps {m : Machine} {t : Except Fault Tape}
    (h : ∀ u, t = .ok u → u.capacity = m.tape.capacity) : Keeps m (m.withTape t).1 := by
  cases t with
  | ok u => exact ⟨h u rfl, rfl, rfl, rfl, id⟩
  | error f => exact .refl m

theorem jump_keeps (m : Machine) (line : Nat) : Keeps m (m.jump line).1 := by
  unfold jump Program.goto
  split
  · next p hp =>
    split at hp
    · next hlt => cases hp; exact ⟨rfl, rfl, rfl, rfl, fun hp => hp.goto hlt⟩
    · cases hp
  · exact .refl m

theorem demand_keeps (m : Machine) (r : Request) : Keeps m (m.demand r).1 := by
  unfold demand
  split <;> next hr => exact read_keeps hr

/-- **No instruction changes the capacity, the program or the status.** -/
theorem perform_keeps (m : Machine) (i : Instruction) (line : Nat) :
    Keeps m (m.perform i line).1 := by
  cases i with
  | jumpBack =>
    simp only [perform]
    split
    · exact jump_keeps m _
    · exact .refl m
  | left => exact withTape_keeps fun u h => Tape.capacity_of_back h
  | right => exact withTape_keeps fun u h => Tape.capacity_of_forward h
  | exec | printInt | halt => exact .refl m
  | character =>
    simp only [perform]
    split
    · exact demand_keeps m _
    · unfold printChar; split <;> exact .refl m
  | decrement =>
    refine withTape_keeps fun u h => ?_
    obtain ⟨v, rfl⟩ := Tape.decrement_eq h; rfl
  | increment =>
    refine withTape_keeps fun u h => ?_
    obtain ⟨v, rfl⟩ := Tape.increment_eq h; rfl
  | mark =>
    simp only [perform]
    split
    · split
      · exact jump_keeps m _
      · exact .refl m
    · exact .refl m
  | clear => exact ⟨rfl, rfl, rfl, rfl, id⟩
  | transfer =>
    simp only [perform]
    split <;> exact ⟨rfl, rfl, rfl, rfl, id⟩
  | readInt => exact demand_keeps m _

theorem fetched_keeps (m : Machine) : Keeps m m.fetched :=
  ⟨rfl, Program.instructions_advance _, rfl, rfl, Program.WellFormed.advance⟩

/-! ## Which instructions look at the input -/

/-- The machine with other input. -/
def withInput (m : Machine) (input : List Char) (closed : Bool) : Machine :=
  { m with input, closed }

theorem withInput_self (m : Machine) : m.withInput m.input m.closed = m :=
  rfl

section
variable (m : Machine) (input : List Char) (closed : Bool)

theorem tape_withInput : (m.withInput input closed).tape = m.tape :=
  rfl

theorem register_withInput : (m.withInput input closed).register = m.register :=
  rfl

theorem program_withInput : (m.withInput input closed).program = m.program :=
  rfl

end

/-- An instruction that asks for input is a demand and nothing else. -/
theorem perform_of_request {m : Machine} {i : Instruction} {r : Request}
    (h : i.request? m.tape.here = some r) (line : Nat) : m.perform i line = m.demand r := by
  cases i with
  | character =>
    simp only [Instruction.request?] at h
    split at h
    · next h0 => cases h; exact if_pos h0
    · cases h
  | readInt => cases h; rfl
  | _ => cases h

theorem withTape_withInput (m : Machine) (t : Except Fault Tape) (input : List Char)
    (closed : Bool) : (m.withInput input closed).withTape t =
      ((m.withTape t).1.withInput input closed, (m.withTape t).2) := by
  cases t <;> rfl

theorem jump_withInput (m : Machine) (line : Nat) (input : List Char) (closed : Bool) :
    (m.withInput input closed).jump line =
      ((m.jump line).1.withInput input closed, (m.jump line).2) := by
  unfold jump
  rw [program_withInput]
  cases m.program.goto line <;> rfl

/-- **An instruction that asks for no input does not look at it.** -/
theorem perform_withInput {m : Machine} {i : Instruction} (h : i.request? m.tape.here = none)
    (line : Nat) (input : List Char) (closed : Bool) :
    (m.withInput input closed).perform i line =
      ((m.perform i line).1.withInput input closed, (m.perform i line).2) := by
  cases i with
  | jumpBack =>
    simp only [perform, program_withInput]
    cases m.program.loopStart line with
    | none => rfl
    | some mark => exact jump_withInput m mark input closed
  | left | right | decrement | increment => exact withTape_withInput m _ input closed
  | exec | clear | printInt | halt => rfl
  | character =>
    have h0 : m.tape.here ≠ 0 := fun h0 => by simp [Instruction.request?, h0] at h
    simp only [perform, tape_withInput, h0, if_false, printChar]
    cases Cell.toChar? m.tape.here <;> rfl
  | mark =>
    by_cases h0 : m.tape.here = 0
    · simp only [perform, tape_withInput, program_withInput, h0, if_true]
      cases m.program.loopExit line with
      | none => rfl
      | some resume => exact jump_withInput m resume input closed
    · simp only [perform, tape_withInput, h0, if_false]
  | transfer =>
    by_cases h0 : m.register = 0
    · simp only [perform, register_withInput, h0, if_true]; rfl
    · simp only [perform, register_withInput, h0, if_false]; rfl
  | readInt => cases h

theorem perform_input {m : Machine} {i : Instruction} (h : i.request? m.tape.here = none)
    (line : Nat) : (m.perform i line).1.input = m.input := by
  have h' := perform_withInput h line m.input m.closed
  rw [withInput_self] at h'
  rw [h']; rfl

theorem perform_ne_await {m : Machine} {i : Instruction} (h : i.request? m.tape.here = none)
    (line : Nat) (r : Request) : (m.perform i line).2 ≠ .await r := by
  cases i with
  | jumpBack =>
    simp only [perform, jump]
    split
    · split <;> simp
    · simp
  | left | right | decrement | increment => simp only [perform, withTape]; split <;> simp
  | exec | clear | printInt | halt => simp [perform]
  | character =>
    have h0 : m.tape.here ≠ 0 := fun h0 => by simp [Instruction.request?, h0] at h
    simp only [perform, if_neg h0, printChar]
    split <;> simp
  | mark =>
    simp only [perform, jump]
    split
    · split
      · split <;> simp
      · simp
    · simp
  | transfer => simp only [perform]; split <;> simp
  | readInt => cases h

/-! ## Cycles -/

/-- The instruction that the next cycle performs. -/
def upcoming (m : Machine) : Instruction :=
  m.program.peek.resolve m.tape.here

/-- What the next cycle performs, before the run is told of it. -/
def performed (m : Machine) : Machine × Effect :=
  m.fetched.perform m.upcoming m.program.cursor

theorem cycle_eq (m : Machine) :
    m.cycle = m.performed.1.settle m.program.cursor m.performed.2 :=
  rfl

theorem performed_keeps (m : Machine) : Keeps m m.performed.1 :=
  m.fetched_keeps.trans (perform_keeps _ _ _)

/-- A cycle goes on, prints, waits, halts or fails. -/
theorem cycle_cases (m : Machine) : ∃ m', Keeps m m' ∧
    (m.cycle = (m', none) ∨
    (∃ text, m.cycle = (m', some (.print text))) ∨
    (∃ r, m.cycle = ({ m' with status := .waiting r m.program.cursor }, some (.input r))) ∨
    m.cycle = ({ m' with status := .idle }, some .ended) ∨
    ∃ f, m.performed = (m', .fail f) ∧
      m.cycle = ({ m' with status := .idle }, some (.failed (f.inLine m.program.cursor)))) := by
  refine ⟨m.performed.1, m.performed_keeps, ?_⟩
  rw [cycle_eq]
  rcases he : m.performed.2 with _ | text | r | _ | f
  · exact Or.inl rfl
  · exact Or.inr (Or.inl ⟨text, rfl⟩)
  · exact Or.inr (Or.inr (Or.inl ⟨r, rfl⟩))
  · exact Or.inr (Or.inr (Or.inr (Or.inl rfl)))
  · exact Or.inr (Or.inr (Or.inr (Or.inr ⟨f, Prod.ext rfl he, rfl⟩)))

/-! ## Slices -/

/-- A slice finds no run, runs, runs after it has served a request, waits on, or gives
    the run up. -/
theorem execute_cases (m : Machine) :
    (m.status = .idle ∧ ∀ n, m.execute n = (m, .stopped)) ∨
    (m.status = .running ∧ ∀ n, m.execute n = advance n m) ∨
    ∃ r line, m.status = .waiting r line ∧
      ((∃ m', m.read r = (m', .taken) ∧
        ∀ n, m.execute n = advance n { m' with status := .running }) ∨
      (m.read r = (m, .pending) ∧ ∀ n, m.execute n = (m, .input r)) ∨
      ∃ m' f, m.read r = (m', .refused f) ∧ ∀ n, m.execute n = m'.abort f line) := by
  rcases hs : m.status with _ | _ | ⟨r, line⟩
  · exact Or.inl ⟨rfl, fun n => by simp only [execute, hs]⟩
  · exact Or.inr (Or.inl ⟨rfl, fun n => by simp only [execute, hs]⟩)
  · refine Or.inr (Or.inr ⟨r, line, rfl, ?_⟩)
    rcases read_cases m r with ⟨v, rest, h⟩ | ⟨-, h⟩ | ⟨-, h⟩ | ⟨rest, text, h⟩
    · exact Or.inl ⟨_, h, fun n => by simp only [execute, hs, h]⟩
    · exact Or.inr (Or.inl ⟨h, fun n => by simp only [execute, hs, h]⟩)
    · exact Or.inr (Or.inr ⟨_, _, h, fun n => by simp only [execute, hs, h]⟩)
    · exact Or.inr (Or.inr ⟨_, _, h, fun n => by simp only [execute, hs, h]⟩)

/-- A property of machines that neither an instruction nor a change of the status
    destroys. -/
structure Stable (P : Machine → Prop) : Prop where
  keeps : ∀ {m m'}, Keeps m m' → P m → P m'
  status : ∀ {m} s, P m → P { m with status := s }

namespace Stable
variable {P : Machine → Prop} (hP : Stable P) {m : Machine}
include hP

theorem cycle (h : P m) : P m.cycle.1 := by
  obtain ⟨m', hk, hc | ⟨text, hc⟩ | ⟨r, hc⟩ | hc | ⟨f, -, hc⟩⟩ := m.cycle_cases <;> rw [hc]
  · exact hP.keeps hk h
  · exact hP.keeps hk h
  · exact hP.status _ (hP.keeps hk h)
  · exact hP.status _ (hP.keeps hk h)
  · exact hP.status _ (hP.keeps hk h)

theorem advance (h : P m) (n : Nat) : P (Machine.advance n m).1 := by
  induction n generalizing m with
  | zero => exact h
  | succ n ih =>
    have hs := hP.cycle h
    simp only [Machine.advance]
    rcases hc : m.cycle with ⟨m', _ | e⟩ <;> rw [hc] at hs
    · exact ih hs
    · exact hs

/-- **What no instruction destroys, no slice destroys.** -/
theorem execute (h : P m) (n : Nat) : P (m.execute n).1 := by
  rcases m.execute_cases with ⟨-, he⟩ | ⟨-, he⟩ |
    ⟨r, line, -, ⟨m', hr, he⟩ | ⟨-, he⟩ | ⟨m', f, hr, he⟩⟩ <;> rw [he]
  · exact h
  · exact hP.advance h n
  · exact hP.advance (hP.status _ (hP.keeps (read_keeps hr) h)) n
  · exact h
  · exact hP.status _ (hP.keeps (read_keeps hr) h)

end Stable

end Machine

end MooCode
