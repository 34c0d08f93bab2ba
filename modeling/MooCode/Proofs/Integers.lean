/-
  Moo-code — which lines are read as integers.

  * `Text.Numeral.worth ds`: what a row of digits adds up to, each digit in its place.
    `Text.Numeral.denotes_iff`: a numeral is an optional sign and digits, and denotes what they are
    worth.
  * `Machine.Reads m r line n`: the next step of the run of `m` serves the request `r`, in a slice of
    `n` cycles, and `Machine.ReadsInteger m line n`: an integer request.  `Reads.execute_eq`: such a
    slice is the read; `ReadsInteger.execute_line`: what it does to a machine with a line in its
    queue.
  * `Machine.integer_read_exact`: an integer read accepts the decimal numerals of the integers that a
    cell can hold, and nothing else.
-/
import Mathlib.Data.Nat.Digits.Defs
import MooCode.Proofs.Arithmetic
import MooCode.Proofs.Waiting

namespace MooCode

namespace Text.Numeral

/-! ## Digits in their places -/

/-- What the digits add up to, each in its place. -/
def worth (ds : List Char) : Nat :=
  Nat.ofDigits 10 (ds.reverse.map fun d => d.toNat - '0'.toNat)

theorem value_eq_worth (ds : List Char) : value ds = worth ds := by
  -- from the last digit on, since that is where the places are counted from
  induction ds using List.reverseRecOn with
  | nil => rfl
  | append_singleton ds d ih =>
    have hv : value (ds ++ [d]) = 10 * value ds + (d.toNat - '0'.toNat) := by simp [value]
    have hw : worth (ds ++ [d]) = (d.toNat - '0'.toNat) + 10 * worth ds := by
      simp [worth, Nat.ofDigits_cons]
    rw [hv, hw, ih, Nat.add_comm]

theorem denotes_iff {cs : List Char} {n : Int} : Denotes cs n ↔
    ∃ sign ds, cs = sign ++ ds ∧ IsDigits ds ∧
      ((sign = [] ∨ sign = ['+']) ∧ n = worth ds ∨ sign = ['-'] ∧ n = -worth ds) := by
  simp only [← value_eq_worth]
  constructor
  · intro h
    cases h with
    | plain hd => exact ⟨[], cs, rfl, hd, Or.inl ⟨Or.inl rfl, rfl⟩⟩
    | @plus ds hd => exact ⟨['+'], ds, rfl, hd, Or.inl ⟨Or.inr rfl, rfl⟩⟩
    | @minus ds hd => exact ⟨['-'], ds, rfl, hd, Or.inr ⟨rfl, rfl⟩⟩
  · rintro ⟨sign, ds, rfl, hd, ⟨rfl | rfl, rfl⟩ | ⟨rfl, rfl⟩⟩
    · exact .plain hd
    · exact .plus hd
    · exact .minus hd

/-- A text is a numeral of one integer. -/
theorem Denotes.unique {cs : List Char} {n k : Int} (h : Denotes cs n) (h' : Denotes cs k) :
    n = k := by
  rw [← integer?_eq_some_iff] at h h'
  rw [h] at h'
  exact Option.some.inj h'

end Text.Numeral

namespace Machine

open Text.Numeral (Denotes IsDigits worth)

variable {m : Machine} {l rest : List Char}

/-! ## Steps that read -/

/-- The next step of the run of `m` serves the request `r` of the instruction in the line `line`, in
    a slice of `n` cycles: one to perform an instruction that asks for `r`, by itself or as what an
    execute instruction stands for, and none to resume one that waits. -/
inductive Reads (m : Machine) : (r : Request) → (line n : Nat) → Prop
  | perform {r : Request} : m.status = .running → m.upcoming.request? m.tape.here = some r →
      Reads m r m.program.cursor 1
  | resume {r : Request} {line : Nat} : m.status = .waiting r line → Reads m r line 0

/-- Such a step is the read and what its outcome means for the run.  The cursor may have moved on
    before the read, which does not look at the program. -/
theorem Reads.execute_eq {r : Request} {line n : Nat} (h : m.Reads r line n) :
    ∃ p : Program, ∀ m',
      ({ m with program := p }.read r = (m', .taken) →
        m.execute n = ({ m' with status := .running }, .running)) ∧
      ∀ f, { m with program := p }.read r = (m', .refused f) →
        m.execute n = ({ m' with status := .idle }, .failed (f.inLine line)) := by
  cases h with
  | perform hs hq =>
    have hx : m.performed = { m with program := m.program.advance }.demand r :=
      perform_of_request (m := m.fetched) hq m.program.cursor
    refine ⟨m.program.advance, fun m' => ⟨fun hr => ?_, fun f hr => ?_⟩⟩
    · -- the run was on before the read, and a read leaves it so
      have hst : m'.status = .running := (read_keeps hr).status.trans hs
      rw [execute_one hs, cycle_eq, hx, demand, hr, ← hst]
      rfl
    · rw [execute_one hs, cycle_eq, hx, demand, hr]
      rfl
  | resume hs =>
    refine ⟨m.program, fun m' => ⟨fun hr => ?_, fun f hr => ?_⟩⟩
    · simp only [execute, hs, show m.read r = (m', .taken) from hr, advance]
    · simp only [execute, hs, show m.read r = (m', .refused f) from hr, abort]

/-- The next step of the run of `m` serves an integer request of the instruction in the line `line`,
    in a slice of `n` cycles: one to perform an instruction that reads, by itself or as what an
    execute instruction stands for, and none to resume one that waits. -/
inductive ReadsInteger (m : Machine) : (line n : Nat) → Prop
  | perform : m.status = .running → m.upcoming = .readInt → ReadsInteger m m.program.cursor 1
  | resume {line : Nat} : m.status = .waiting .integer line → ReadsInteger m line 0

theorem readsInteger_iff {line n : Nat} : m.ReadsInteger line n ↔ m.Reads .integer line n := by
  constructor
  · intro h
    cases h with
    | perform hs hu => exact .perform hs (Instruction.request?_eq_integer_iff.2 hu)
    | resume hs => exact .resume hs
  · intro h
    cases h with
    | perform hs hq => exact .perform hs (Instruction.request?_eq_integer_iff.1 hq)
    | resume hs => exact .resume hs

namespace ReadsInteger
variable {line n : Nat}

theorem execute_line (h : m.ReadsInteger line n) (hi : m.input = l ++ '\n' :: rest)
    (hl : '\n' ∉ l) : ∃ p : Program,
    (∃ v : Cell, Denotes (Text.trim l) v.toInt ∧ m.execute n = ({ m with
      program := p, tape := m.tape.set v, input := rest, status := .running }, .running)) ∨
    ((∀ v : Cell, ¬ Denotes (Text.trim l) v.toInt) ∧ m.execute n =
      ({ m with program := p, input := rest, status := .idle },
        .failed ⟨.illegalInput, some line, String.ofList (Text.trim l)⟩)) := by
  obtain ⟨p, hp⟩ := (readsInteger_iff.1 h).execute_eq
  refine ⟨p, ?_⟩
  rcases read_line (m := { m with program := p }) hi hl with ⟨v, hv, hr⟩ | ⟨hv, hr⟩
  · exact Or.inl ⟨v, hv, (hp _).1 hr⟩
  · exact Or.inr ⟨hv, (hp _).2 _ hr⟩

end ReadsInteger

/-- **An integer read accepts exactly the decimal numerals of the integers that a cell can hold.**
    Whatever state a machine is in when it serves an integer request, with a newline in the queue,
    let `t` be the text before the first newline without the blanks at its two ends.  The read
    stores `v` in the current cell if and only if `t` is an optional sign and one or more digits
    that are worth `v`, and `v` is in the range of a cell.  Otherwise the run fails and tells `t`,
    and the tape stays as it is.  In both cases the line and its newline leave the queue, and no
    other cell, the pointer or the register changes. -/
theorem integer_read_exact {m : Machine} {line n : Nat} (hm : m.ReadsInteger line n)
    {l rest : List Char} (hi : m.input = l ++ '\n' :: rest) (hl : '\n' ∉ l) :
    let t := Text.trim l
    let after := m.execute n
    (∀ u, Text.Stripped l u ↔ u = t) ∧
    (∀ v : Int, after.2 = .running ∧ after.1.tape.here.toInt = v ↔
      (-2147483648 ≤ v ∧ v ≤ 2147483647) ∧ ∃ sign ds, t = sign ++ ds ∧ IsDigits ds ∧
        ((sign = [] ∨ sign = ['+']) ∧ v = worth ds ∨ sign = ['-'] ∧ v = -worth ds)) ∧
    (after.2 ≠ .running →
      after.2 = .failed ⟨.illegalInput, some line, String.ofList t⟩ ∧ after.1.tape = m.tape) ∧
    after.1.input = rest ∧ after.1.tape.pointer = m.tape.pointer ∧
    after.1.register = m.register ∧
    ∀ k, k ≠ m.tape.pointer → after.1.tape.cells[k]? = m.tape.cells[k]? := by
  intro t after
  refine ⟨fun u => Text.stripped_iff, ?_⟩
  simp only [← Text.Numeral.denotes_iff]
  obtain ⟨p, ⟨v, hv, he⟩ | ⟨hv, he⟩⟩ := hm.execute_line hi hl
  · rw [show after = _ from he]
    refine ⟨fun w => ⟨?_, ?_⟩, fun hne => absurd rfl hne, rfl, rfl, rfl, fun k hk => ?_⟩
    · rintro ⟨-, rfl⟩
      exact ⟨Cell.inRange_toInt v, hv⟩
    · rintro ⟨-, hw⟩
      exact ⟨rfl, hv.unique hw⟩
    · rw [Tape.cells_set, List.getElem?_set_ne hk.symm]
  · rw [show after = _ from he]
    refine ⟨fun w => ⟨?_, ?_⟩, fun _ => ⟨rfl, rfl⟩, rfl, rfl, rfl, fun k _ => rfl⟩
    · rintro ⟨hr, -⟩
      cases hr
    · rintro ⟨hr, hw⟩
      obtain ⟨c, -, rfl⟩ := Cell.ofInt?_of_inRange hr
      exact absurd hw (hv c)

/-- The numeral of the least integer that a cell can hold, with zeros in front and blanks of two
    kinds around it, and a numeral past the greatest one that has been waited for. -/
theorem integer_read_exact_ends :
    let m := ofTape (.zeros 1)
    let cs := [.start "moO oom", .enter "\u00A0-002147483648\t", .execute 1]
    let cs' := [.start "oom", .execute 9, .enter " 2147483648"]
    (m.calls cs).1.ReadsInteger 1 1 ∧ ((m.calls cs).1.execute 1).2 = .running ∧
      ((m.calls cs).1.execute 1).1.tape.here.toInt = -2147483648 ∧
      ((m.calls cs).1.execute 1).1.input = [] ∧
      (m.calls cs').1.ReadsInteger 0 0 ∧ ((m.calls cs').1.execute 0).2 =
        .failed ⟨.illegalInput, some 0, "2147483648"⟩ := by
  intro m cs cs'
  have hm : (m.calls cs).1.ReadsInteger 1 1 := .perform (by decide) (by decide)
  have hm' : (m.calls cs').1.ReadsInteger 0 0 := .resume (by decide)
  have hi : (m.calls cs).1.input = "\u00A0-002147483648\t".toList ++ '\n' :: [] := by decide
  have hi' : (m.calls cs').1.input = " 2147483648".toList ++ '\n' :: [] := by decide
  obtain ⟨-, hv, -, hq, -⟩ := integer_read_exact hm hi (by decide)
  obtain ⟨-, -, hf, -⟩ := integer_read_exact hm' hi' (by decide)
  have hd : IsDigits "002147483648".toList := by decide
  have hw : worth "002147483648".toList = 2147483648 := by decide
  obtain ⟨hr, hc⟩ := (hv (-2147483648)).2
    ⟨by decide, ['-'], _, by decide, hd, Or.inr ⟨rfl, by rw [hw]; rfl⟩⟩
  exact ⟨hm, hr, hc, hq, hm', (hf (by decide)).1⟩

end Machine

end MooCode
