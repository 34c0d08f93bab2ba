/-
  Moo-code — when instructions fail.

  * `Machine.Raises m line i c`: the instruction `i` in the line `line`, about to take effect on `m`,
    raises a fault with the cause `c`, said of the cells, the program and the input alone.
  * `fails_jumpBack`, `fails_mark`, `fails_demand`, ...: for each kind of instruction, why it can
    fail; `perform_raises`: together they are `Raises`.
  * `Machine.Due m line n`: the next step of the run of `m` is that of the instruction in the line
    `line`, and it takes a slice of `n` cycles.
  * `Machine.faults_exact`: a step fails for the reason that `Raises` gives, and only then.
-/
import MooCode.Proofs.Arithmetic
import MooCode.Proofs.Waiting

namespace MooCode

/-! ## Cells at the ends of their range -/

namespace Cell

theorem succ?_eq_none_iff {c : Cell} : succ? c = none ↔ c.toInt = 2147483647 := by
  have hr := inRange_toInt c
  rw [succ?, ofInt?_eq_none_iff]
  unfold InRange at hr ⊢
  omega

theorem pred?_eq_none_iff {c : Cell} : pred? c = none ↔ c.toInt = -2147483648 := by
  have hr := inRange_toInt c
  rw [pred?, ofInt?_eq_none_iff]
  unfold InRange at hr ⊢
  omega

/-- A cell is no character if it is negative, a surrogate or past the last code point. -/
theorem toChar?_eq_none_iff {c : Cell} : toChar? c = none ↔
    c.toInt < 0 ∨ (0xD800 ≤ c.toInt ∧ c.toInt ≤ 0xDFFF) ∨ 0x10FFFF < c.toInt := by
  unfold toChar?
  split
  · next h =>
    obtain ⟨h0, hv⟩ := h
    unfold Nat.isValidChar at hv
    simp only [reduceCtorEq, false_iff]
    omega
  · next h =>
    unfold Nat.isValidChar at h
    simp only [true_iff]
    omega

end Cell

/-- The cause of the fault, if the instruction fails. -/
def Effect.cause? : Effect → Option Cause
  | fail f => some f.cause
  | _ => none

theorem Instruction.resolve_eq_exec_iff {i : Instruction} {c : Cell} :
    i.resolve c = exec ↔ i = exec ∧ c = 3 := by
  rw [resolve_eq_iff (show code? .exec = some 3 from rfl)]
  simp

namespace Machine

/-- The instruction `i` in the line `line`, about to take effect on `m`, raises a fault with the
    cause `c`. -/
def Raises (m : Machine) (line : Nat) (i : Instruction) (c : Cause) : Prop :=
  let j := i.resolve m.tape.here
  let v := m.tape.here.toInt
  match c with
  | .selfReference => i = .exec ∧ m.tape.here = 3
  | .noMarker => j = .jumpBack ∧ ∀ k ≤ line, m.program.instruction? k ≠ some .mark
  | .outOfBounds =>
    j = .left ∧ m.tape.pointer = 0 ∨ j = .right ∧ m.tape.pointer + 1 = m.tape.capacity
  | .overflow => j = .increment ∧ v = 2147483647 ∨ j = .decrement ∧ v = -2147483648
  | .illegalCharacter =>
    j = .character ∧ m.tape.here ≠ 0 ∧ (v < 0 ∨ (0xD800 ≤ v ∧ v ≤ 0xDFFF) ∨ 0x10FFFF < v)
  | .unterminatedMarker =>
    j = .mark ∧ m.tape.here = 0 ∧ ∀ k, line + 2 ≤ k → m.program.instruction? k ≠ some .jumpBack
  | .inputPastEnd =>
    (j = .readInt ∨ j = .character ∧ m.tape.here = 0) ∧ m.input = [] ∧ m.closed = true
  | .illegalInput =>
    j = .readInt ∧ ∃ l rest, m.input = l ++ '\n' :: rest ∧ '\n' ∉ l ∧
      ∀ w : Cell, ¬ Text.Numeral.Denotes (Text.trim l) w.toInt
  | .invalidCapacity | .alreadyRunning | .internalError | .fileNotFound => False

/-! ## Why instructions fail -/

section
variable {m : Machine} {c : Cause}

theorem fails_jumpBack {line : Nat} : (m.perform .jumpBack line).2.cause? = some c ↔
    c = .noMarker ∧ ∀ k ≤ line, m.program.instruction? k ≠ some .mark := by
  rw [← Program.loopStart_eq_none_iff]
  simp only [perform]
  rcases hs : m.program.loopStart line with _ | mark
  · simp [Effect.cause?, eq_comm]
  · simp [jump_of_lt (Program.loopStart_lt hs), Effect.cause?]

theorem fails_mark (hp : m.program.WellFormed) {line : Nat} :
    (m.perform .mark line).2.cause? = some c ↔ c = .unterminatedMarker ∧ m.tape.here = 0 ∧
      ∀ k, line + 2 ≤ k → m.program.instruction? k ≠ some .jumpBack := by
  rw [← hp.loopExit_eq_none_iff]
  simp only [perform]
  by_cases h0 : m.tape.here = 0
  · rcases hs : m.program.loopExit line with _ | resume
    · simp [h0, Effect.cause?, eq_comm]
    · simp [h0, jump_of_lt (hp.loopExit_lt hs), Effect.cause?]
  · simp [h0, Effect.cause?]

theorem fails_left {line : Nat} : (m.perform .left line).2.cause? = some c ↔
    c = .outOfBounds ∧ m.tape.pointer = 0 := by
  simp only [perform]
  rcases m.tape with ⟨_ | ⟨l, left⟩, here, right⟩
  · simp [Tape.back, withTape, Effect.cause?, Tape.pointer, eq_comm]
  · simp [Tape.back, withTape, Effect.cause?, Tape.pointer]

theorem fails_right {line : Nat} : (m.perform .right line).2.cause? = some c ↔
    c = .outOfBounds ∧ m.tape.pointer + 1 = m.tape.capacity := by
  simp only [perform]
  rcases m.tape with ⟨left, here, _ | ⟨r, right⟩⟩
  · simp [Tape.forward, withTape, Effect.cause?, Tape.pointer, Tape.capacity, eq_comm]
  · simp [Tape.forward, withTape, Effect.cause?, Tape.pointer, Tape.capacity]

theorem fails_increment {line : Nat} : (m.perform .increment line).2.cause? = some c ↔
    c = .overflow ∧ m.tape.here.toInt = 2147483647 := by
  rw [← Cell.succ?_eq_none_iff]
  simp only [perform, Tape.increment]
  rcases Cell.succ? m.tape.here with _ | v
  · simp [withTape, Effect.cause?, eq_comm]
  · simp [withTape, Effect.cause?]

theorem fails_decrement {line : Nat} : (m.perform .decrement line).2.cause? = some c ↔
    c = .overflow ∧ m.tape.here.toInt = -2147483648 := by
  rw [← Cell.pred?_eq_none_iff]
  simp only [perform, Tape.decrement]
  rcases Cell.pred? m.tape.here with _ | v
  · simp [withTape, Effect.cause?, eq_comm]
  · simp [withTape, Effect.cause?]

theorem fails_printChar : m.printChar.2.cause? = some c ↔ c = .illegalCharacter ∧
    (m.tape.here.toInt < 0 ∨ (0xD800 ≤ m.tape.here.toInt ∧ m.tape.here.toInt ≤ 0xDFFF) ∨
      0x10FFFF < m.tape.here.toInt) := by
  rw [← Cell.toChar?_eq_none_iff, printChar]
  rcases Cell.toChar? m.tape.here with _ | ch
  · simp [Effect.cause?, eq_comm]
  · simp [Effect.cause?]

/-- The queue has one first line. -/
theorem line_unique {l l' rest rest' : List Char} (hl : '\n' ∉ l) (hl' : '\n' ∉ l')
    (h : l ++ '\n' :: rest = l' ++ '\n' :: rest') : l = l' := by
  have he := Text.span_of_notMem hl rest
  rw [h, Text.span_of_notMem hl' rest'] at he
  exact (Prod.mk.inj he).1.symm

theorem fails_demand (hl : m.Lined) {r : Request} : (m.demand r).2.cause? = some c ↔
    (c = .inputPastEnd ∧ m.input = [] ∧ m.closed = true) ∨
    (c = .illegalInput ∧ r = .integer ∧ ∃ l rest, m.input = l ++ '\n' :: rest ∧ '\n' ∉ l ∧
      ∀ w : Cell, ¬ Text.Numeral.Denotes (Text.trim l) w.toInt) := by
  rcases hr : m.read r with ⟨m', x⟩
  rw [demand, hr]
  cases hl.readsAs hr with
  | pending hi ho => simp [Effect.cause?, hi, ho]
  | pastEnd hi hc => simp [Effect.cause?, hi, hc, eq_comm]
  | char hi => simp [Effect.cause?, hi]
  | @integer l rest v hi hn hv =>
    refine iff_of_false (by simp [Effect.cause?]) ?_
    rintro (⟨-, h0, -⟩ | ⟨-, -, l', rest', hi', hn', hw⟩)
    · simp [hi] at h0
    · rw [hi] at hi'
      rw [line_unique hn hn' hi'] at hv
      exact hw v hv
  | @illegal l rest hi hn hv =>
    constructor
    · intro hc
      exact Or.inr ⟨(Option.some.inj hc).symm, rfl, l, rest, hi, hn, hv⟩
    · rintro (⟨-, h0, -⟩ | ⟨rfl, -, -⟩)
      · simp [hi] at h0
      · rfl

theorem fails_character (hl : m.Lined) {line : Nat} :
    (m.perform .character line).2.cause? = some c ↔
      (c = .inputPastEnd ∧ m.tape.here = 0 ∧ m.input = [] ∧ m.closed = true) ∨
      (c = .illegalCharacter ∧ m.tape.here ≠ 0 ∧ (m.tape.here.toInt < 0 ∨
        (0xD800 ≤ m.tape.here.toInt ∧ m.tape.here.toInt ≤ 0xDFFF) ∨
          0x10FFFF < m.tape.here.toInt)) := by
  simp only [perform]
  by_cases h0 : m.tape.here = 0
  · rw [if_pos h0, fails_demand hl]
    simp [h0]
  · rw [if_neg h0, fails_printChar]
    simp [h0]

/-- **An instruction fails for the reason that `Raises` gives, and only then.** -/
theorem perform_raises (hp : m.program.WellFormed) (hl : m.Lined) {i : Instruction} {line : Nat} :
    (m.perform (i.resolve m.tape.here) line).2.cause? = some c ↔ m.Raises line i c := by
  have hself : (i = .exec ∧ m.tape.here = 3) = (i.resolve m.tape.here = .exec) :=
    propext Instruction.resolve_eq_exec_iff.symm
  unfold Raises
  simp only [hself]
  cases i.resolve m.tape.here with
  | jumpBack => rw [fails_jumpBack]; cases c <;> simp
  | left => rw [fails_left]; cases c <;> simp
  | right => rw [fails_right]; cases c <;> simp
  | exec => cases c <;> simp [perform, Effect.cause?]
  | character => rw [fails_character hl]; cases c <;> simp
  | decrement => rw [fails_decrement]; cases c <;> simp
  | increment => rw [fails_increment]; cases c <;> simp
  | mark => rw [fails_mark hp]; cases c <;> simp
  | transfer =>
    simp only [perform]
    split <;> cases c <;> simp [Effect.cause?]
  | clear | printInt | halt => cases c <;> simp [perform, Effect.cause?]
  | readInt => rw [perform, fails_demand hl]; cases c <;> simp

end

/-- Where the cursor is does not count. -/
theorem raises_fetched {m : Machine} {line : Nat} {i : Instruction} {c : Cause} :
    m.fetched.Raises line i c ↔ m.Raises line i c := by
  have hp : ∀ k, m.fetched.program.instruction? k = m.program.instruction? k :=
    m.program.instruction?_advance
  unfold Raises
  simp only [hp]
  rfl

/-! ## Steps of a run -/

/-- The next step of the run of `m` is that of the instruction in the line `line`, and takes a
    slice of `n` cycles: one to perform the next instruction, none to serve the request of an
    instruction that waits. -/
inductive Due (m : Machine) : (line n : Nat) → Prop
  | perform : m.status = .running → Due m m.program.cursor 1
  | resume {r : Request} {line : Nat} : m.status = .waiting r line → Due m line 0

/-- The event `e` tells of the fault of an instruction in the line `line` with the effect `x`. -/
def Tells (line : Nat) (x : Effect) (e : Event) : Prop :=
  ∀ f, e = .failed f ↔ ∃ g, x = .fail g ∧ f = g.inLine line

theorem tells_of_running {m : Machine} (hs : m.status = .running) :
    Tells m.program.cursor m.performed.2 (m.execute 1).2 := by
  intro f
  rw [execute_one hs, cycle_eq]
  rcases m.performed with ⟨m', _ | text | r | _ | g⟩ <;> simp [settle, abort, eq_comm]

theorem tells_of_waiting {m : Machine} {r : Request} {line : Nat}
    (hw : m.status = .waiting r line) : Tells line (m.demand r).2 (m.execute 0).2 := by
  intro f
  simp only [execute, hw, demand]
  rcases m.read r with ⟨m', _ | _ | g⟩ <;> simp [advance, abort, eq_comm]

/-- A step is that of an instruction of the program. -/
theorem Fresh.due {capacity : Nat} {m : Machine} (hm : Fresh capacity m) {cs : List Call}
    {line n : Nat} (hd : (m.calls cs).1.Due line n) :
    let s := (m.calls cs).1
    ∃ i x, s.program.instruction? line = some i ∧ Tells line x (s.execute n).2 ∧
      (∀ c, x.cause? = some c ↔ s.Raises line i c) ∧ (i = .halt → x.cause? = none) := by
  intro s
  have hp : s.program.WellFormed := (hm.sound.calls cs).program
  have hl : s.Lined := hm.lined.calls cs
  cases hd with
  | perform hs =>
    refine ⟨s.program.peek, s.performed.2, hp.instruction?_cursor, tells_of_running hs, ?_, ?_⟩
    · intro c
      rw [← raises_fetched]
      exact perform_raises (m := s.fetched) hp.advance hl
    · intro hi
      rw [performed, upcoming, hi]
      rfl
  | @resume r _ hw =>
    obtain ⟨i, hi, hq⟩ := (hm.awaits hw).asks
    have hx : s.perform (i.resolve s.tape.here) line = s.demand r := perform_of_request hq line
    refine ⟨i, (s.demand r).2, hi, tells_of_waiting hw, ?_, ?_⟩
    · intro c
      rw [← hx]
      exact perform_raises hp hl
    · rintro rfl
      cases hq

/-- **A run fails exactly when the language says so.**  The next step of a run that is on, be it the
    next instruction or the read that is waited for, fails with a cause if and only if `Raises`
    gives that cause for the instruction in the line of the step.  The fault is placed in that line,
    which is before the line of the `halt`. -/
theorem faults_exact {capacity : Nat} {m : Machine} (hm : Fresh capacity m) {cs : List Call}
    {line n : Nat} (hd : (m.calls cs).1.Due line n) :
    let s := (m.calls cs).1
    ∃ i, s.program.instruction? line = some i ∧
      (∀ c, (∃ f, (s.execute n).2 = .failed f ∧ f.cause = c) ↔ s.Raises line i c) ∧
      ∀ f, (s.execute n).2 = .failed f →
        f.line = some line ∧ ∃ e, s.program.instruction? e = some .halt ∧ line < e := by
  intro s
  obtain ⟨i, x, hi, ht, hc, hh⟩ := hm.due hd
  refine ⟨i, hi, ?_, ?_⟩
  · intro c
    rw [← hc]
    constructor
    · rintro ⟨f, hf, rfl⟩
      obtain ⟨g, rfl, rfl⟩ := (ht f).1 hf
      rfl
    · intro hx
      cases x with
      | fail g => exact ⟨g.inLine line, (ht _).2 ⟨g, rfl, rfl⟩, Option.some.inj hx⟩
      | _ => cases hx
  · intro f hf
    obtain ⟨g, rfl, rfl⟩ := (ht f).1 hf
    have hne : i ≠ .halt := by
      intro hi
      cases hh hi
    have hp : s.program.WellFormed := (hm.sound.calls cs).program
    exact ⟨rfl, hp.exists_halt (hp.succ_lt hi hne)⟩

/-- A marker on a zero cell whose only return directly follows it, and a read that an execute
    instruction has come to wait for when no more input comes. -/
theorem faults_exact_two_steps :
    let m := ofTape (.zeros 0)
    let cs := [.start "MOO moo OOM"]
    let cs' := [.start "oom mOO", .enter "11", .execute 9, .closeInput]
    Machine.blank 1 = .ok m ∧
      (m.calls cs).1.Due 0 1 ∧
      ((m.calls cs).1.execute 1).2 = .failed ⟨.unterminatedMarker, some 0, ""⟩ ∧
      (m.calls cs).1.Raises 0 .mark .unterminatedMarker ∧
      (m.calls cs').1.Due 1 0 ∧ (m.calls cs').1.Raises 1 .exec .inputPastEnd ∧
      ∃ f, ((m.calls cs').1.execute 0).2 = .failed f ∧ f.cause = .inputPastEnd := by
  intro m cs cs'
  have hm : Fresh 1 m := .blank rfl
  have hs : (m.calls cs).1.Due 0 1 := .perform (by decide)
  have hw : (m.calls cs').1.status = .waiting .integer 1 := by decide
  have hf : ((m.calls cs).1.execute 1).2 = .failed ⟨.unterminatedMarker, some 0, ""⟩ := by decide
  have hr : (m.calls cs').1.Raises 1 .exec .inputPastEnd :=
    ⟨Or.inl (by decide), by decide, by decide⟩
  have h0 : (m.calls cs).1.program.instruction? 0 = some .mark := by decide
  have h1 : (m.calls cs').1.program.instruction? 1 = some .exec := by decide
  obtain ⟨i, hi, hx, -⟩ := faults_exact hm hs
  obtain ⟨j, hj, hy, -⟩ := faults_exact hm (.resume hw)
  rw [h0] at hi
  rw [h1] at hj
  cases hi
  cases hj
  exact ⟨rfl, hs, hf, (hx _).1 ⟨_, hf, rfl⟩, .resume hw, hr, (hy _).2 hr⟩

end Machine

end MooCode
