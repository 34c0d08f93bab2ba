/-
  Moo-code — runs that are given up.

  * `Machine.Spares m f.cause m'`: `m'` is what the fault `f` leaves of `m`, which is all of it but
    for a line that is no integer.  `read_spares` and `perform_spares`: reads and instructions
    that fail leave this much.
  * `Machine.failed_atomic`: an instruction that fails has no effect of its own.
-/
import MooCode.Proofs.Queue
import MooCode.Proofs.Suspension

namespace MooCode

namespace Machine

/-- What a fault with the cause `c` leaves of `m`: all of it, but for a line that is no
    integer. -/
inductive Spares (m : Machine) (c : Cause) : Machine → Prop
  | all : c ≠ .illegalInput → Spares m c m
  | rest {l rest : List Char} : c = .illegalInput → '\n' ∉ l →
      m.input = l ++ '\n' :: rest → Spares m c { m with input := rest }

namespace Spares
variable {m m' : Machine} {c : Cause} (h : Spares m c m')
include h

theorem tape : m'.tape = m.tape := by
  cases h <;> rfl

theorem register : m'.register = m.register := by
  cases h <;> rfl

theorem input_eq (hc : c ≠ .illegalInput) : m'.input = m.input := by
  cases h with
  | all => rfl
  | rest hi => exact absurd hi hc

theorem input_line (hc : c = .illegalInput) : ∃ l, '\n' ∉ l ∧ m.input = l ++ '\n' :: m'.input := by
  cases h with
  | all hn => exact absurd hc hn
  | @rest l rest _ hl hi => exact ⟨l, hl, hi⟩

end Spares

/-! ## Reads -/

theorem starve_spares {m m' : Machine} {f : Fault} (h : m.starve = (m', .refused f)) :
    Spares m f.cause m' := by
  unfold starve at h
  split at h
  · cases h
    exact .all (by simp)
  · cases h

/-- **A read that fails takes a line that is no integer, or nothing.** -/
theorem read_spares {m m' : Machine} (hl : m.Lined) {r : Request} {f : Fault}
    (h : m.read r = (m', .refused f)) : Spares m f.cause m' := by
  cases r with
  | char =>
    simp only [read, readChar] at h
    split at h
    · cases h
    · exact starve_spares h
  | integer =>
    simp only [read, readInteger] at h
    split at h
    · next line rest hn =>
      obtain ⟨l, rfl, hnl, hi⟩ := hl.nextLine?_eq hn
      split at h
      · cases h
      · cases h
        exact .rest rfl hnl hi
    · exact starve_spares h

theorem demand_spares {m m' : Machine} (hl : m.Lined) {r : Request} {f : Fault}
    (h : m.demand r = (m', .fail f)) : Spares m f.cause m' := by
  unfold demand at h
  split at h
  · cases h
  · cases h
  · next hr =>
    cases h
    exact read_spares hl hr

/-! ## Instructions -/

theorem withTape_spares {m m' : Machine} {t : Except Fault Tape} {f : Fault}
    (h : m.withTape t = (m', .fail f)) (hf : ∀ {g}, t = .error g → g.OfTape) :
    Spares m f.cause m' := by
  cases t with
  | ok u => cases h
  | error g =>
    cases h
    exact .all (hf rfl).cause_ne_illegalInput

theorem jump_spares {m m' : Machine} {line : Nat} {f : Fault}
    (h : m.jump line = (m', .fail f)) : Spares m f.cause m' := by
  unfold jump Program.goto at h
  split at h
  · cases h
  · next hg =>
    split at hg
    · cases hg
    · cases hg
      cases h
      exact .all (by simp [Program.outOfRange])

/-- **An instruction that fails has no effect**, but for the line that it has read. -/
theorem perform_spares {m m' : Machine} (hl : m.Lined) {i : Instruction} {line : Nat} {f : Fault}
    (h : m.perform i line = (m', .fail f)) : Spares m f.cause m' := by
  cases i with
  | jumpBack =>
    simp only [perform] at h
    split at h
    · exact jump_spares h
    · cases h
      exact .all (by simp)
  | left => exact withTape_spares h Tape.back_fault
  | right => exact withTape_spares h Tape.forward_fault
  | increment => exact withTape_spares h Tape.increment_fault
  | decrement => exact withTape_spares h Tape.decrement_fault
  | exec =>
    cases h
    exact .all (by simp)
  | character =>
    simp only [perform] at h
    split at h
    · exact demand_spares hl h
    · unfold printChar at h
      split at h
      · cases h
      · cases h
        exact .all (by simp)
  | mark =>
    simp only [perform] at h
    split at h
    · split at h
      · exact jump_spares h
      · cases h
        exact .all (by simp)
    · cases h
  | transfer =>
    simp only [perform] at h
    split at h <;> cases h
  | clear | printInt | halt => cases h
  | readInt => exact demand_spares hl h

/-! ## Runs -/

/-- A cycle that gives a run up has moved the cursor on, and no more. -/
theorem cycle_spares {d m' : Machine} (hl : d.Lined) {f : Fault}
    (h : d.cycle = (m', some (.failed f))) : f.line = some d.program.cursor ∧
      ∃ m₁, Spares d.fetched f.cause m₁ ∧ m' = { m₁ with status := .idle } := by
  obtain ⟨m₁, -, hc | ⟨text, hc⟩ | ⟨r, hc⟩ | hc | ⟨g, hg, hc⟩⟩ := d.cycle_cases <;>
    rw [hc] at h <;> cases h
  have hs : Spares d.fetched g.cause m₁ := perform_spares (m := d.fetched) hl hg
  exact ⟨rfl, m₁, hs, rfl⟩

/-- **An instruction that fails has no effect of its own.**  If a slice of a run gives it up,
    let `d` be the machine just before the failing instruction was dispatched: in this slice,
    or, if the instruction has come to wait, in the slice in which it did.  Then tape,
    register and pointer are those of `d`, the machine is idle, and the fault is placed in
    the line of that instruction.  Whether more input comes is as before, and so is the
    queue, except that a line that is no integer has been removed with its newline. -/
theorem failed_atomic {capacity : Nat} {m : Machine} (hm : Fresh capacity m) {cs : List Call}
    {n : Nat} {m' : Machine} {f : Fault} (h : (m.calls cs).1.execute n = (m', .failed f)) :
    ∃ d before : Machine,
      ((∃ a < n, (m.calls cs).1.execute a = (d, .running) ∧ d.cycle = (m', some (.failed f)) ∧
          before = d) ∨
        ∃ r, (m.calls cs).1.status = .waiting r d.program.cursor ∧ Suspended m cs d r ∧
          before = (m.calls cs).1) ∧
      m'.tape = d.tape ∧ m'.register = d.register ∧ m'.status = .idle ∧
      f.line = some d.program.cursor ∧ m'.closed = (m.calls cs).1.closed ∧
      (f.cause ≠ .illegalInput → m'.input = before.input) ∧
      (f.cause = .illegalInput → ∃ l, '\n' ∉ l ∧ before.input = l ++ '\n' :: m'.input) := by
  have hl := hm.lined.calls cs
  have hc := execute_closed h
  obtain ⟨a, d, hlt, ha, hd⟩ | ⟨-, he | ⟨r, he⟩⟩ | ⟨r, line, m₁, g, hs, hr, rfl, he⟩ :=
    execute_event h (by simp)
  · -- a cycle of this slice fails
    have hld : d.Lined := by
      have hsuf := hl.suffix (execute_suffix _ a)
      rwa [ha] at hsuf
    obtain ⟨hline, m₁, hsp, rfl⟩ := cycle_spares hld hd
    exact ⟨d, d, Or.inl ⟨a, hlt, ha, hd, rfl⟩, hsp.tape, hsp.register, rfl, hline, hc,
      hsp.input_eq, hsp.input_line⟩
  · cases he
  · cases he
  · -- the read that was waited for fails, before any cycle of this slice
    cases he
    have hsp := read_spares hl hr
    obtain ⟨d, hsus, rfl⟩ := suspended_of_waiting hm.idle hs
    exact ⟨d, _, Or.inr ⟨r, hs, hsus, rfl⟩, hsp.tape.trans hsus.tape,
      hsp.register.trans hsus.register, rfl, rfl, hc, hsp.input_eq, hsp.input_line⟩

/-- A read that an execute instruction asks for, which comes to wait and is then served a line
    that is no integer. -/
theorem failed_atomic_through_exec :
    let m := ofTape (.zeros 0)
    let cs := [.start "oom mOO", .enter "11", .execute 9, .enter "x", .enter "7"]
    Machine.blank 1 = .ok m ∧ (m.calls cs).1.status = .waiting .integer 1 ∧
      ∃ m' d before : Machine,
        (m.calls cs).1.execute 3 = (m', .failed ⟨.illegalInput, some 1, "x"⟩) ∧
        m'.tape = d.tape ∧ m'.tape.cells = [11] ∧ d.program.cursor = 1 ∧
        m'.input = ['7', '\n'] ∧ ∃ l, '\n' ∉ l ∧ before.input = l ++ '\n' :: m'.input := by
  intro m cs
  have he : ((m.calls cs).1.execute 3).2 = .failed ⟨.illegalInput, some 1, "x"⟩ := by decide
  have hx : (m.calls cs).1.execute 3 =
      (((m.calls cs).1.execute 3).1, .failed ⟨.illegalInput, some 1, "x"⟩) := by rw [← he]
  obtain ⟨d, before, -, ht, -, -, hl, -, -, hi⟩ :=
    failed_atomic (.blank (show Machine.blank 1 = .ok m from rfl)) hx
  exact ⟨rfl, by decide, _, d, before, hx, ht, by decide, (Option.some.inj hl).symm, by decide,
    hi rfl⟩

end Machine

end MooCode
