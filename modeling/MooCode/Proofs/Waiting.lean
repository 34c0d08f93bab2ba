/-
  Moo-code — machines that wait.

  * `Machine.read_line`: what an integer read makes of the first line of the queue.
  * `Machine.ReadsAs m r x m'`: an attempt to serve the request `r` on `m` comes out as `x` and
    leaves `m'`.  `Lined.readsAs`: so it does if the queue is empty or ends with a newline.
  * `Instruction.request?_resolve_char`, `Instruction.request?_resolve_integer`: which
    instructions ask for what, also through an execute instruction.
  * `Machine.Awaits m r line`: the instruction in the line `line` asks for `r`, and the cursor is
    on the next line.  `Fresh.awaits`: so it is whenever a machine waits.
  * `Machine.waiting_resumes`: what a slice does to a machine that waits.
-/
import MooCode.Proofs.Fifo
import MooCode.Proofs.Inline
import MooCode.Proofs.Numeral

namespace MooCode

namespace Machine

/-! ## Reads -/

theorem nextLine?_of_newline {m : Machine} {l rest : List Char}
    (hi : m.input = l ++ '\n' :: rest) (hl : '\n' ∉ l) : m.nextLine? = some (l ++ ['\n'], rest) := by
  rw [nextLine?, hi, Text.span_of_notMem hl]

/-- An integer read takes the first line and stores what it denotes, or refuses it. -/
theorem read_line {m : Machine} {l rest : List Char} (hi : m.input = l ++ '\n' :: rest)
    (hl : '\n' ∉ l) :
    (∃ v : Cell, Text.Numeral.Denotes (Text.trim l) v.toInt ∧
      m.read .integer = ({ m with tape := m.tape.set v, input := rest }, .taken)) ∨
    ((∀ v : Cell, ¬ Text.Numeral.Denotes (Text.trim l) v.toInt) ∧
      m.read .integer = ({ m with input := rest },
        .refused { cause := .illegalInput, detail := String.ofList (Text.trim l) })) := by
  have ht : Text.trim (l ++ ['\n']) = Text.trim l := Text.trim_append_blank (by decide) l
  simp only [read, readInteger, nextLine?_of_newline hi hl, ht]
  rcases hv : Cell.ofDecimal? (Text.trim l) with _ | v
  · exact Or.inr ⟨Cell.ofDecimal?_eq_none_iff.1 hv, rfl⟩
  · exact Or.inl ⟨v, Cell.ofDecimal?_eq_some_iff.1 hv, rfl⟩

/-- An attempt to serve the request `r` on `m` comes out as `x` and leaves `m'`.  The first
    character, or what the first line denotes, is stored in the current cell. -/
inductive ReadsAs (m : Machine) : (r : Request) → (x : Reading) → (m' : Machine) → Prop
  | pending {r : Request} : m.input = [] → m.closed = false → ReadsAs m r .pending m
  | pastEnd {r : Request} : m.input = [] → m.closed = true →
      ReadsAs m r (.refused { cause := .inputPastEnd }) m
  | char {c : Char} {rest : List Char} : m.input = c :: rest →
      ReadsAs m .char .taken { m with tape := m.tape.set (Cell.ofChar c), input := rest }
  | integer {l rest : List Char} {v : Cell} : m.input = l ++ '\n' :: rest → '\n' ∉ l →
      Text.Numeral.Denotes (Text.trim l) v.toInt →
      ReadsAs m .integer .taken { m with tape := m.tape.set v, input := rest }
  | illegal {l rest : List Char} : m.input = l ++ '\n' :: rest → '\n' ∉ l →
      (∀ v : Cell, ¬ Text.Numeral.Denotes (Text.trim l) v.toInt) →
      ReadsAs m .integer
        (.refused { cause := .illegalInput, detail := String.ofList (Text.trim l) })
        { m with input := rest }

theorem readsAs_starve {m : Machine} (r : Request) (hi : m.input = []) :
    ReadsAs m r m.starve.2 m.starve.1 := by
  unfold starve
  cases hc : m.closed with
  | false => exact .pending hi hc
  | true => exact .pastEnd hi hc

/-- **A read takes the first character, or the first line as the integer it denotes.** -/
theorem Lined.readsAs {m m' : Machine} (h : m.Lined) {r : Request} {x : Reading}
    (hr : m.read r = (m', x)) : ReadsAs m r x m' := by
  have hx : ReadsAs m r (m.read r).2 (m.read r).1 := by
    cases r with
    | char =>
      simp only [read, readChar]
      rcases hi : m.input with _ | ⟨c, rest⟩
      · exact readsAs_starve .char hi
      · exact .char hi
    | integer =>
      by_cases he : m.input = []
      · have hs : m.read .integer = m.starve := by simp [read, readInteger, nextLine?, he]
        rw [hs]
        exact readsAs_starve .integer he
      · obtain ⟨l, rest, hi, hl⟩ := List.eq_append_cons_of_mem (h.mem_newline he)
        rcases read_line hi hl with ⟨v, hv, hs⟩ | ⟨hv, hs⟩ <;> rw [hs]
        · exact .integer hi hl hv
        · exact .illegal hi hl hv
  rwa [hr] at hx

namespace ReadsAs
variable {m m' : Machine} {r : Request}

theorem pending_iff {x : Reading} (h : ReadsAs m r x m') :
    x = .pending ↔ m.input = [] ∧ m.closed = false := by
  cases h with
  | pending hi ho => simp [hi, ho]
  | pastEnd _ hc => simp [hc]
  | char hi => simp [hi]
  | integer hi _ _ | illegal hi _ _ => simp [hi]

theorem program {x : Reading} (h : ReadsAs m r x m') : m'.program = m.program := by
  cases h <;> rfl

/-- What has been read is no longer in the queue. -/
theorem length_lt (h : ReadsAs m r .taken m') : m'.input.length < m.input.length := by
  cases h with
  | char hi => simp [hi]
  | integer hi _ _ =>
    simp only [hi, List.length_append, List.length_cons]
    omega

end ReadsAs

end Machine

/-! ## Which instructions ask for input -/

namespace Instruction

theorem request?_eq_char_iff {i : Instruction} {c : Cell} :
    i.request? c = some .char ↔ i = character ∧ c = 0 := by
  cases i <;> simp [request?]

theorem request?_eq_integer_iff {i : Instruction} {c : Cell} :
    i.request? c = some .integer ↔ i = readInt := by
  cases i <;> simp [request?]

/-- A character is asked for by a character instruction on a zero cell only, since zero is not
    its code. -/
theorem request?_resolve_char {i : Instruction} {c : Cell} :
    (i.resolve c).request? c = some .char ↔ i = character ∧ c = 0 := by
  rw [request?_eq_char_iff, resolve_eq_iff (show code? .character = some 4 from rfl)]
  constructor
  · rintro ⟨⟨-, hi⟩ | ⟨-, rfl⟩, h0⟩
    · exact ⟨hi, h0⟩
    · exact absurd h0 (by decide)
  · rintro ⟨rfl, h0⟩
    exact ⟨Or.inl ⟨by decide, rfl⟩, h0⟩

theorem request?_resolve_integer {i : Instruction} {c : Cell} :
    (i.resolve c).request? c = some .integer ↔ i = readInt ∨ i = exec ∧ c = 11 := by
  rw [request?_eq_integer_iff, resolve_eq_iff (show code? .readInt = some 11 from rfl)]
  cases i <;> simp

end Instruction

namespace Machine

/-! ## What is waited for -/

/-- The instruction in the line `line` asks for `r`, and the cursor is on the next line. -/
structure Awaits (m : Machine) (r : Request) (line : Nat) : Prop where
  cursor : m.program.cursor = line + 1
  asks : ∃ i, m.program.instruction? line = some i ∧
    (i.resolve m.tape.here).request? m.tape.here = some r

/-- **A machine that waits is behind the instruction that asks for what it waits for.** -/
theorem Fresh.awaits {capacity : Nat} {m : Machine} (hm : Fresh capacity m) {cs : List Call}
    {r : Request} {line : Nat} (hw : (m.calls cs).1.status = .waiting r line) :
    (m.calls cs).1.Awaits r line := by
  obtain ⟨d, ⟨cs₁, n, cs₂, a, w, input, closed, -, -, ha, hd, hs⟩, rfl⟩ :=
    suspended_of_waiting hm.idle hw
  -- the cycle that came to wait has only moved the cursor on, from a line that is not the last
  have hsound : Sound capacity d := by
    have h := (stable_sound capacity).execute (hm.sound.calls cs₁) a
    rwa [ha] at h
  obtain ⟨-, hq, rfl⟩ := cycle_input hd
  have hi := hsound.program.instruction?_cursor
  have hne : d.program.peek ≠ .halt := by
    intro hh
    rw [upcoming, hh] at hq
    cases hq
  have hlt := hsound.program.succ_lt hi hne
  rw [hs]
  constructor
  · show d.program.advance.cursor = d.program.cursor + 1
    rw [Program.advance, if_pos hlt]
  · exact ⟨d.program.peek, (d.program.instruction?_advance _).trans hi, hq⟩

namespace Awaits
variable {m : Machine} {r : Request} {line : Nat} (h : m.Awaits r line)
include h

theorem char (hr : r = .char) :
    m.program.instruction? line = some .character ∧ m.tape.here = 0 := by
  subst hr
  obtain ⟨i, hi, hq⟩ := h.asks
  obtain ⟨rfl, h0⟩ := Instruction.request?_resolve_char.1 hq
  exact ⟨hi, h0⟩

theorem integer (hr : r = .integer) : m.program.instruction? line = some .readInt ∨
    m.program.instruction? line = some .exec ∧ m.tape.here = 11 := by
  subst hr
  obtain ⟨i, hi, hq⟩ := h.asks
  rcases Instruction.request?_resolve_integer.1 hq with rfl | ⟨rfl, hc⟩
  · exact Or.inl hi
  · exact Or.inr ⟨hi, hc⟩

end Awaits

/-! ## Slices -/

/-- A slice leaves a machine waiting as it is only if there is nothing to read yet. -/
theorem execute_eq_self_iff {m : Machine} (hl : m.Lined) {r : Request} {line : Nat}
    (hw : m.status = .waiting r line) (n : Nat) :
    m.execute n = (m, .input r) ↔ m.input = [] ∧ m.closed = false := by
  rcases hr : m.read r with ⟨m', x⟩
  have hx := hl.readsAs hr
  rw [← hx.pending_iff]
  rcases x with _ | _ | f
  · -- what the read has taken does not come back
    simp only [execute, hw, hr]
    refine iff_of_false ?_ (by simp)
    intro he
    have hs := advance_suffix n { m' with status := .running }
    rw [he] at hs
    have hle := hs.length_le
    have hlt := hx.length_lt
    exact absurd hle (Nat.not_le.2 hlt)
  · cases hx
    simp only [execute, hw, hr]
  · simp only [execute, hw, hr]
    exact iff_of_false (by simp [abort]) (by simp)

/-- Where there is something to read, or no more input comes, a slice serves the request and goes
    on, or gives the run up. -/
theorem execute_of_waiting {m : Machine} (hl : m.Lined) {r : Request} {line : Nat}
    (hw : m.status = .waiting r line) (hne : ¬ (m.input = [] ∧ m.closed = false)) (n : Nat) :
    (∃ m', ReadsAs m r .taken m' ∧ m.execute n = { m' with status := .running }.execute n) ∨
      ∃ m' f, ReadsAs m r (.refused f) m' ∧
        m.execute n = ({ m' with status := .idle }, .failed (f.inLine line)) := by
  rcases hr : m.read r with ⟨m', x⟩
  have hx := hl.readsAs hr
  rcases x with _ | _ | f
  · exact Or.inl ⟨m', hx, by simp only [execute, hw, hr]⟩
  · exact absurd (hx.pending_iff.1 rfl) hne
  · exact Or.inr ⟨m', f, hx, by simp only [execute, hw, hr, abort]⟩

/-- **A machine that waits is in front of the instruction after the one that asks.**  The one that
    asks is a character instruction on a zero cell, or one that reads an integer, by itself or as
    what an execute instruction stands for.  A slice of any size leaves the machine waiting as it is
    exactly if nothing has been entered and more input comes.  Otherwise it serves the one
    request, in the current cell, and goes on with the next instruction for so many cycles; or the
    read is refused, and the run is given up in the line of the instruction that asked. -/
theorem waiting_resumes {capacity : Nat} {m : Machine} (hm : Fresh capacity m) {cs : List Call}
    {r : Request} {line : Nat} (hw : (m.calls cs).1.status = .waiting r line) :
    let s := (m.calls cs).1
    s.program.cursor = line + 1 ∧
    (∃ e, s.program.instruction? e = some .halt ∧ line < e) ∧
    (r = .char → s.program.instruction? line = some .character ∧ s.tape.here = 0) ∧
    (r = .integer → s.program.instruction? line = some .readInt ∨
      s.program.instruction? line = some .exec ∧ s.tape.here = 11) ∧
    ∀ n, (s.execute n = (s, .input r) ↔ s.input = [] ∧ s.closed = false) ∧
      (¬ (s.input = [] ∧ s.closed = false) →
        (∃ s', ReadsAs s r .taken s' ∧ s'.program.cursor = line + 1 ∧
          s.execute n = { s' with status := .running }.execute n) ∨
        ∃ s' f, ReadsAs s r (.refused f) s' ∧
          s.execute n = ({ s' with status := .idle }, .failed (f.inLine line))) := by
  intro s
  have ha : s.Awaits r line := hm.awaits hw
  have hl : s.Lined := hm.lined.calls cs
  have hp : s.program.WellFormed := (hm.sound.calls cs).program
  have hlt : line + 1 < s.program.length := by
    rw [← ha.cursor]
    exact hp.cursor_lt
  refine ⟨ha.cursor, hp.exists_halt hlt, ha.char, ha.integer, fun n => ?_⟩
  refine ⟨execute_eq_self_iff hl hw n, fun hne => ?_⟩
  refine (execute_of_waiting hl hw hne n).imp_left ?_
  rintro ⟨s', hx, he⟩
  exact ⟨s', hx, by rw [hx.program, ha.cursor], he⟩

/-- A read that an execute instruction asks for: twice there is nothing to read, and then a line
    that is served before the next instruction prints what has been read. -/
theorem waiting_resumes_through_exec :
    let m := ofTape (.zeros 0)
    let cs := [.start "oom mOO OOM", .enter "11", .execute 9]
    let cs' := cs ++ [.execute 7, .enter " -5 "]
    Machine.blank 1 = .ok m ∧ (m.calls cs).1.status = .waiting .integer 1 ∧
      (m.calls cs).1.program.cursor = 2 ∧
      ((m.calls cs).1.program.instruction? 1 = some .readInt ∨
        (m.calls cs).1.program.instruction? 1 = some .exec ∧ (m.calls cs).1.tape.here = 11) ∧
      (m.calls cs).1.execute 7 = ((m.calls cs).1, .input .integer) ∧
      (m.calls cs').1.execute 7 ≠ ((m.calls cs').1, .input .integer) ∧
      ((m.calls cs').1.execute 7).2 = .print "-5" := by
  intro m cs cs'
  have hm : Fresh 1 m := .blank rfl
  have hs : (m.calls cs).1.status = .waiting .integer 1 := by decide
  have hs' : (m.calls cs').1.status = .waiting .integer 1 := by decide
  obtain ⟨hc, -, -, hi, hx⟩ := waiting_resumes hm hs
  obtain ⟨-, -, -, -, hy⟩ := waiting_resumes hm hs'
  refine ⟨rfl, hs, hc, hi rfl, (hx 7).1.2 (by decide), ?_, by decide⟩
  intro he
  exact absurd ((hy 7).1.1 he) (by decide)

end Machine

end MooCode
