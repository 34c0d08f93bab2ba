/-
  Moo-code — the checked machine.

  The machine once more, on indices and words.  The current cell and the next
  instruction are found by their index, a sum has to fit into a word, a jump has to
  lead to a line of the program, and a fault is given a place and a detail at most once.
  Where a check fails there is no result at all: each definition here is `none` then.

  * `sum?`, `Fault.inLine?`, `Fault.detailed?`, `Tape.get?`, `Tape.set?`,
    `Program.peek?`, `Program.goto?`: the checks.
  * `Machine.perform?`, `Machine.cycle?`, `Machine.execute?`, `Machine.calls?`: the
    machine on top of them, instruction by instruction as `Machine.perform`.
  * `Machine.cycle?_eq`, `Machine.execute?_eq`, `Machine.calls?_eq`: on a sound machine whose
    sizes are words no check fails, and the result is that of the machine.
-/
import MooCode.Proofs.Sound

namespace MooCode

/-! ## Checks -/

/-- The number of values of a word. -/
def wordSize : Nat := 0x10000000000000000

/-- The sum of two words, if it is one. -/
def sum? (a b : Nat) : Option Nat :=
  if a + b < wordSize then some (a + b) else none

theorem sum?_eq {a b : Nat} (h : a + b < wordSize) : sum? a b = some (a + b) :=
  if_pos h

namespace Fault

/-- The fault `f` placed in a line, if it has no place yet. -/
def inLine? (f : Fault) (line : Nat) : Option Fault :=
  if f.line = none then some (f.inLine line) else none

/-- The fault `f` with a detail, if it has none yet. -/
def detailed? (f : Fault) (detail : String) : Option Fault :=
  if f.detail = "" then some { f with detail } else none

end Fault

namespace Tape

/-- The tape with the row `cells` and the pointer `p`, if `p` is the index of a cell. -/
def ofRow? (cells : List Cell) (p : Nat) : Option Tape :=
  match cells.drop p with
  | [] => none
  | here :: right => some ⟨(cells.take p).reverse, here, right⟩

/-- The current cell, by its index. -/
def get? (t : Tape) : Option Cell :=
  t.cells[t.pointer]?

/-- The tape with `v` in the cell that the pointer is the index of. -/
def set? (t : Tape) (v : Cell) : Option Tape :=
  if t.pointer < t.cells.length then ofRow? (t.cells.set t.pointer v) t.pointer else none

def back? (t : Tape) : Option (Except Fault Tape) :=
  match t.pointer with
  | p + 1 => (ofRow? t.cells p).map .ok
  | 0 => (Fault.detailed? { cause := .outOfBounds } "POINTER BELOW FIRST CELL").map .error

def forward? (t : Tape) : Option (Except Fault Tape) := do
  let next ← sum? t.pointer 1
  if t.cells.length ≤ next then
    (Fault.detailed? { cause := .outOfBounds } "POINTER PAST LAST CELL").map .error
  else (ofRow? t.cells next).map .ok

/-- The current cell counted on by `next?`. -/
def count? (next? : Cell → Option Cell) (t : Tape) : Option (Except Fault Tape) := do
  match next? (← t.get?) with
  | some v => (t.set? v).map .ok
  | none => some (.error { cause := .overflow })

end Tape

namespace Program

/-- The instruction that the cursor is the line of. -/
def peek? (p : Program) : Option Instruction :=
  p.instruction? p.cursor

def advance? (p : Program) : Option Program := do
  let next ← sum? p.cursor 1
  some (if next < p.length then { p with cursor := next } else p)

/-- The cursor in the line `line`, which has to be one of the program. -/
def goto? (p : Program) (line : Nat) : Option Program :=
  if line < p.length then some { p with cursor := line } else none

def afterReturn? (p : Program) : (n line : Nat) → Option (Option Nat)
  | 0, _ => some none
  | n + 1, line =>
    match p.instruction? line with
    | some .jumpBack => (sum? line 1).map some
    | some .halt | none => some none
    | some _ => do p.afterReturn? n (← sum? line 1)

def loopExit? (p : Program) (mark : Nat) : Option (Option Nat) := do
  match p.instruction? (← sum? mark 1) with
  | some .halt | none => some none
  | some _ =>
    let line ← sum? mark 2
    p.afterReturn? (p.length - line) line

end Program

/-! ## The machine on top of them -/

namespace Machine

/-- The machine with `v` stored in the current cell and the input `rest`. -/
def stored? (m : Machine) (v : Cell) (rest : List Char) : Option (Machine × Reading) := do
  some ({ m with tape := ← m.tape.set? v, input := rest }, .taken)

def read? (m : Machine) : (r : Request) → Option (Machine × Reading)
  | .char =>
    match m.input with
    | c :: rest => m.stored? (Cell.ofChar c) rest
    | [] => some m.starve
  | .integer =>
    match m.nextLine? with
    | some (line, rest) =>
      let text := Text.trim line
      match Cell.ofDecimal? text with
      | some v => m.stored? v rest
      | none => do
        let f ← Fault.detailed? { cause := .illegalInput } (String.ofList text)
        some ({ m with input := rest }, .refused f)
    | none => some m.starve

def demand? (m : Machine) (r : Request) : Option (Machine × Effect) := do
  match ← m.read? r with
  | (m, .taken) => some (m, .next)
  | (m, .pending) => some (m, .await r)
  | (m, .refused f) => some (m, .fail f)

def jump? (m : Machine) (line : Nat) : Option (Machine × Effect) := do
  some ({ m with program := ← m.program.goto? line }, .next)

def printChar? (m : Machine) : Option (Machine × Effect) := do
  let v ← m.tape.get?
  match Cell.toChar? v with
  | some c => some (m, .print (String.singleton c))
  | none =>
    let f ← Fault.detailed? { cause := .illegalCharacter } (String.ofList (Cell.decimal v))
    some (m, .fail f)

def perform? (m : Machine) (i : Instruction) (line : Nat) : Option (Machine × Effect) :=
  match i with
  | .jumpBack =>
    match m.program.loopStart line with
    | some mark => m.jump? mark
    | none => some (m, .fail { cause := .noMarker })
  | .left => m.tape.back?.map m.withTape
  | .right => m.tape.forward?.map m.withTape
  | .exec => some (m, .fail { cause := .selfReference })
  | .character => do if (← m.tape.get?) = 0 then m.demand? .char else m.printChar?
  | .decrement => (m.tape.count? Cell.pred?).map m.withTape
  | .increment => (m.tape.count? Cell.succ?).map m.withTape
  | .mark => do
    if (← m.tape.get?) = 0 then
      match ← m.program.loopExit? line with
      | some resume => m.jump? resume
      | none => some (m, .fail { cause := .unterminatedMarker })
    else some (m, .next)
  | .clear => do some ({ m with tape := ← m.tape.set? 0 }, .next)
  | .transfer => do
    if m.register = 0 then some ({ m with register := ← m.tape.get? }, .next)
    else some ({ m with tape := ← m.tape.set? m.register, register := 0 }, .next)
  | .printInt => do some (m, .print (String.ofList (Cell.decimal (← m.tape.get?))))
  | .readInt => m.demand? .integer
  | .halt => some (m, .halt)

def dispatch? (m : Machine) (i : Instruction) (line : Nat) : Option (Machine × Effect) := do
  if i = .exec then m.perform? (Instruction.ofCode (← m.tape.get?)) line else m.perform? i line

def abort? (m : Machine) (f : Fault) (line : Nat) : Option (Machine × Event) := do
  some ({ m with status := .idle }, .failed (← f.inLine? line))

def settle? (m : Machine) (line : Nat) : Effect → Option (Machine × Option Event)
  | .fail f => do
    let after ← m.abort? f line
    some (after.1, some after.2)
  | e => some (m.settle line e)

def cycle? (m : Machine) : Option (Machine × Option Event) := do
  let line := m.program.cursor
  let i ← m.program.peek?
  let after ← { m with program := ← m.program.advance? }.dispatch? i line
  after.1.settle? line after.2

def advance? : (cycles : Nat) → Machine → Option (Machine × Event)
  | 0, m => some (m, .running)
  | n + 1, m => do
    match ← m.cycle? with
    | (m, none) => advance? n m
    | (m, some e) => some (m, e)

def execute? (m : Machine) (cycles : Nat) : Option (Machine × Event) :=
  match m.status with
  | .idle => some (m, .stopped)
  | .running => advance? cycles m
  | .waiting r line => do
    match ← m.read? r with
    | (m, .taken) => advance? cycles { m with status := .running }
    | (m, .pending) => some (m, .input r)
    | (m, .refused f) => m.abort? f line

def call? (m : Machine) : (c : Call) → Option (Machine × Reply)
  | .execute cycles => (m.execute? cycles).map fun after => (after.1, .event after.2)
  | c => some (m.call c)

def calls? (m : Machine) : (cs : List Call) → Option (Machine × List Reply)
  | [] => some (m, [])
  | c :: cs => do
    let after ← m.call? c
    let rest ← after.1.calls? cs
    some (rest.1, after.2 :: rest.2)

end Machine

/-! ## No check fails -/

namespace Fault

theorem inLine?_eq {f : Fault} (h : f.line = none) (line : Nat) :
    f.inLine? line = some (f.inLine line) :=
  if_pos h

@[simp] theorem detailed?_eq (c : Cause) (detail : String) :
    detailed? { cause := c } detail = some { cause := c, detail } :=
  if_pos rfl

end Fault

namespace Tape

theorem ofRow?_eq {t : Tape} {cells : List Cell} {p : Nat} (hc : t.cells = cells)
    (hp : t.pointer = p) : ofRow? cells p = some t := by
  subst hc hp
  simp [ofRow?, Tape.cells, pointer]

@[simp] theorem get?_eq (t : Tape) : t.get? = some t.here :=
  t.cells_pointer

@[simp] theorem set?_eq (t : Tape) (v : Cell) : t.set? v = some (t.set v) := by
  have hlt : t.pointer < t.cells.length := t.length_cells ▸ t.pointer_lt_capacity
  rw [set?, if_pos hlt]
  exact ofRow?_eq (t.cells_set v) rfl

@[simp] theorem back?_eq (t : Tape) : t.back? = some t.back := by
  rcases t with ⟨_ | ⟨l, left⟩, here, right⟩
  · rfl
  · obtain ⟨hc, hp⟩ := cells_of_back (t := ⟨l :: left, here, right⟩) rfl
    show (ofRow? _ left.length).map _ = _
    rw [ofRow?_eq (p := left.length) hc rfl]
    rfl

theorem forward?_eq {t : Tape} (h : t.capacity < wordSize) : t.forward? = some t.forward := by
  have hlt := t.pointer_lt_capacity
  have hs : sum? t.pointer 1 = some (t.pointer + 1) := sum?_eq (by omega)
  rw [forward?, hs, Option.bind_eq_bind, Option.bind_some, length_cells]
  rcases t with ⟨left, here, _ | ⟨r, right⟩⟩
  · rw [if_pos (by simp [capacity, pointer]), Fault.detailed?_eq]
    rfl
  · obtain ⟨hc, hp⟩ := cells_of_forward (t := ⟨left, here, r :: right⟩) rfl
    rw [if_neg (by simp [capacity, pointer]), ofRow?_eq hc hp]
    rfl

theorem count?_succ (t : Tape) : t.count? Cell.succ? = some t.increment := by
  simp only [count?, get?_eq, set?_eq, increment, Option.bind_eq_bind, Option.bind_some]
  cases Cell.succ? t.here <;> rfl

theorem count?_pred (t : Tape) : t.count? Cell.pred? = some t.decrement := by
  simp only [count?, get?_eq, set?_eq, decrement, Option.bind_eq_bind, Option.bind_some]
  cases Cell.pred? t.here <;> rfl

end Tape

namespace Program

theorem afterReturn?_eq {p : Program} (h : p.length < wordSize) (n line : Nat) :
    p.afterReturn? n line = some (p.afterReturn n line) := by
  induction n generalizing line with
  | zero => rfl
  | succ n ih =>
    rcases hi : p.instruction? line with _ | i
    · simp [afterReturn?, afterReturn, hi]
    · have hlt := lt_length_of_instruction? hi
      have hs : sum? line 1 = some (line + 1) := sum?_eq (by omega)
      cases i <;> simp [afterReturn?, afterReturn, hi, hs, ih]

theorem loopExit?_eq {p : Program} (h : p.length < wordSize) {mark : Nat}
    (hm : mark + 2 < wordSize) : p.loopExit? mark = some (p.loopExit mark) := by
  have h₁ : sum? mark 1 = some (mark + 1) := sum?_eq (by omega)
  have h₂ : sum? mark 2 = some (mark + 2) := sum?_eq (by omega)
  rcases hi : p.instruction? (mark + 1) with _ | i
  · simp [loopExit?, loopExit, h₁, hi]
  · cases i <;> simp [loopExit?, loopExit, h₁, h₂, hi, afterReturn?_eq h]

theorem WellFormed.advance?_eq {p : Program} (hp : p.WellFormed) (h : p.length < wordSize) :
    p.advance? = some p.advance := by
  have := hp.cursor_lt
  simp [advance?, Program.advance, sum?_eq (show p.cursor + 1 < wordSize by omega)]

end Program

namespace Machine

theorem read?_eq (m : Machine) (r : Request) : m.read? r = some (m.read r) := by
  cases r with
  | char =>
    simp only [read?, read, readChar, stored?, Tape.set?_eq]
    rcases m.input with _ | ⟨c, rest⟩ <;> rfl
  | integer =>
    simp only [read?, read, readInteger, stored?, Tape.set?_eq, Fault.detailed?_eq]
    rcases m.nextLine? with _ | ⟨line, rest⟩
    · rfl
    · rcases hv : Cell.ofDecimal? (Text.trim line) with _ | v <;> simp only [hv] <;> rfl

theorem demand?_eq (m : Machine) (r : Request) : m.demand? r = some (m.demand r) := by
  simp only [demand?, demand, read?_eq, Option.bind_eq_bind, Option.bind_some]
  rcases m.read r with ⟨m', _ | _ | f⟩ <;> rfl

theorem printChar?_eq (m : Machine) : m.printChar? = some m.printChar := by
  simp only [printChar?, printChar, Tape.get?_eq, Fault.detailed?_eq, Option.bind_eq_bind,
    Option.bind_some]
  rcases Cell.toChar? m.tape.here with _ | c <;> rfl

theorem jump?_eq {m : Machine} {line : Nat} (h : line < m.program.length) :
    m.jump? line = some (m.jump line) := by
  rw [jump_of_lt h, jump?, Program.goto?, if_pos h]
  rfl

/-- The sizes of the machine are words. -/
structure Fits (m : Machine) : Prop where
  capacity_lt : m.tape.capacity < wordSize
  length_lt : m.program.length < wordSize

theorem stable_fits : Stable Fits where
  keeps hk h := ⟨hk.capacity ▸ h.capacity_lt, by
    rw [Program.length, hk.instructions]; exact h.length_lt⟩
  status _ h := ⟨h.capacity_lt, h.length_lt⟩

theorem Fits.call {m : Machine} (h : m.Fits) {c : Call}
    (hc : ∀ text, c = .start text → text.utf8ByteSize < wordSize) : (m.call c).1.Fits := by
  cases c with
  | start text =>
    have hl := Program.length_ofSource_le text
    have ht := hc text rfl
    simp only [Machine.call, start]
    split
    · exact h
    · exact ⟨h.capacity_lt, by simp only [attempt]; unfold wordSize at ht ⊢; omega⟩
  | reset =>
    simp only [Machine.call, reset]
    split
    · exact h
    · exact ⟨(Tape.capacity_clear _).symm ▸ h.capacity_lt, h.length_lt⟩
  | enter text => exact ⟨h.capacity_lt, h.length_lt⟩
  | closeInput => exact ⟨h.capacity_lt, h.length_lt⟩
  | execute n => exact stable_fits.execute h n

theorem Fresh.fits {capacity : Nat} {m : Machine} (h : Fresh capacity m)
    (hc : capacity < wordSize) : m.Fits := by
  obtain ⟨n, rfl, rfl⟩ := h.eq
  refine ⟨(Tape.capacity_zeros n).symm ▸ hc, ?_⟩
  show (Program.ofSource "").length < wordSize
  decide

/-- **No check of an instruction fails.** -/
theorem perform?_eq {m : Machine} (hp : m.program.WellFormed) (hf : m.Fits) {i : Instruction}
    {line : Nat} (hl : i = .mark → line + 1 < m.program.length) :
    m.perform? i line = some (m.perform i line) := by
  cases i with
  | jumpBack =>
    simp only [perform?, perform]
    rcases hm : m.program.loopStart line with _ | mark
    · rfl
    · exact jump?_eq (Program.loopStart_lt hm)
  | left => simp only [perform?, perform, Tape.back?_eq, Option.map_some]
  | right => simp only [perform?, perform, Tape.forward?_eq hf.capacity_lt, Option.map_some]
  | decrement => simp only [perform?, perform, Tape.count?_pred, Option.map_some]
  | increment => simp only [perform?, perform, Tape.count?_succ, Option.map_some]
  | exec | halt => rfl
  | character =>
    simp only [perform?, perform, Tape.get?_eq, Option.bind_eq_bind, Option.bind_some]
    split
    · exact demand?_eq m _
    · exact printChar?_eq m
  | mark =>
    have hw : line + 2 < wordSize := Nat.lt_of_le_of_lt (hl rfl) hf.length_lt
    simp only [perform?, perform, Tape.get?_eq, Program.loopExit?_eq hf.length_lt hw,
      Option.bind_eq_bind, Option.bind_some]
    split
    · rcases hr : m.program.loopExit line with _ | resume
      · rfl
      · exact jump?_eq (hp.loopExit_lt hr)
    · rfl
  | clear => simp [perform?, perform]
  | transfer =>
    simp only [perform?, perform, Tape.get?_eq, Tape.set?_eq, Option.bind_eq_bind,
      Option.bind_some]
    split <;> rfl
  | printInt => simp [perform?, perform]
  | readInt => exact demand?_eq m _

theorem dispatch?_eq_perform? (m : Machine) (i : Instruction) (line : Nat) :
    m.dispatch? i line = m.perform? (i.resolve m.tape.here) line := by
  simp only [dispatch?, Instruction.resolve, Tape.get?_eq, Option.bind_eq_bind, Option.bind_some]
  split <;> rfl

/-- An instruction that is not the end of the program has a line after it. -/
theorem Sound.succ_cursor_lt {capacity : Nat} {m : Machine} (h : Sound capacity m)
    (hi : m.upcoming = .mark) : m.program.cursor + 1 < m.program.length := by
  refine h.program.succ_lt h.program.instruction?_cursor fun hh => ?_
  simp [upcoming, hh, Instruction.resolve] at hi

namespace Sound
variable {capacity : Nat} {m : Machine} (h : Sound capacity m)
include h

theorem settle?_eq : m.performed.1.settle? m.program.cursor m.performed.2 = some m.cycle := by
  rw [cycle_eq]
  rcases he : m.performed.2 with _ | text | r | _ | f
  case fail =>
    have hr := h.performed_fail (show m.performed = (m.performed.1, .fail f) from Prod.ext rfl he)
    simp only [settle?, abort?, Fault.inLine?_eq hr.line, Option.bind_eq_bind, Option.bind_some]
    rfl
  all_goals rfl

theorem performed?_eq (hf : m.Fits) :
    m.fetched.dispatch? m.program.peek m.program.cursor = some m.performed := by
  have hk := m.fetched_keeps
  rw [dispatch?_eq_perform?]
  refine perform?_eq (hk.wellFormed h.program) (stable_fits.keeps hk hf) fun hm => ?_
  rw [Program.length, hk.instructions]
  exact h.succ_cursor_lt hm

/-- No check of a cycle fails. -/
theorem cycle?_eq (hf : m.Fits) : m.cycle? = some m.cycle := by
  have hp : m.program.peek? = some m.program.peek := h.program.instruction?_cursor
  simp only [cycle?, hp, h.program.advance?_eq hf.length_lt, Option.bind_eq_bind, Option.bind_some]
  show (m.fetched.dispatch? _ _).bind _ = _
  rw [h.performed?_eq hf, Option.bind_some, h.settle?_eq]

theorem advance?_eq (hf : m.Fits) (n : Nat) :
    Machine.advance? n m = some (Machine.advance n m) := by
  induction n generalizing m with
  | zero => rfl
  | succ n ih =>
    have hs := (stable_sound capacity).cycle h
    simp only [Machine.advance?, Machine.advance, h.cycle?_eq hf, Option.bind_eq_bind,
      Option.bind_some]
    obtain ⟨m', hk, hc | ⟨text, hc⟩ | ⟨r, hc⟩ | hc | ⟨f, -, hc⟩⟩ := m.cycle_cases <;>
      rw [hc] at hs ⊢
    exact ih hs (stable_fits.keeps hk hf)

theorem execute?_eq (hf : m.Fits) (n : Nat) : m.execute? n = some (m.execute n) := by
  rcases m.execute_cases with ⟨hs, he⟩ | ⟨hs, he⟩ |
    ⟨r, line, hs, ⟨m', hr, he⟩ | ⟨hr, he⟩ | ⟨m', f, hr, he⟩⟩
  · simp only [execute?, hs, he]
  · simp only [execute?, hs, he, h.advance?_eq hf n]
  · have h' := (stable_sound capacity).status .running
      ((stable_sound capacity).keeps (read_keeps hr) h)
    have hf' := stable_fits.status .running (stable_fits.keeps (read_keeps hr) hf)
    simp only [execute?, hs, he, read?_eq, hr, Option.bind_eq_bind, Option.bind_some,
      h'.advance?_eq hf' n]
  · simp only [execute?, hs, he, read?_eq, hr, Option.bind_eq_bind, Option.bind_some]
  · simp only [execute?, hs, he, read?_eq, hr, abort?, Fault.inLine?_eq (read_refused hr).line,
      Option.bind_eq_bind, Option.bind_some]
    rfl

theorem call?_eq (hf : m.Fits) (c : Call) : m.call? c = some (m.call c) := by
  cases c with
  | execute n => simp only [call?, h.execute?_eq hf, Option.map_some, Machine.call]
  | _ => rfl

theorem calls?_eq (hf : m.Fits) {cs : List Call}
    (hcs : ∀ text, .start text ∈ cs → text.utf8ByteSize < wordSize) :
    m.calls? cs = some (m.calls cs) := by
  induction cs generalizing m with
  | nil => rfl
  | cons c cs ih =>
    have hc : ∀ text, c = .start text → text.utf8ByteSize < wordSize := by
      rintro text rfl
      exact hcs text List.mem_cons_self
    have hr := ih (h.call c) (hf.call hc) fun text ht => hcs text (List.mem_cons_of_mem _ ht)
    simp only [calls?, h.call?_eq hf, hr, Option.bind_eq_bind, Option.bind_some, Machine.calls]

end Sound

/-- **Nothing that is asked of a machine makes a check fail.**  After any calls a machine
    has its cells, the pointer on one of them, a program that ends with its only
    `halt`, and the cursor on a line of it.  If its capacity and the sizes of the texts are
    words, then every index was in range on the way, every sum a word, every jump within
    the program, and every fault placed and detailed once.  No run fails for a reason
    that is not its own. -/
theorem calls_safe {capacity : Nat} {m : Machine} (h : Fresh capacity m) (cs : List Call) :
    (m.calls cs).1.tape.cells.length = capacity ∧
    (m.calls cs).1.tape.pointer < capacity ∧
    (∃ is, (m.calls cs).1.program.instructions.toList = is ++ [.halt] ∧ .halt ∉ is) ∧
    (m.calls cs).1.program.cursor < (m.calls cs).1.program.length ∧
    (capacity < wordSize → (∀ text, .start text ∈ cs → text.utf8ByteSize < wordSize) →
      m.calls? cs = some (m.calls cs)) ∧
    ∀ f, .event (.failed f) ∈ (m.calls cs).2 → f.cause ≠ .internalError := by
  have hs := h.sound
  have hs' := hs.calls cs
  refine ⟨?_, ?_, hs'.program.ends, hs'.program.cursor_lt, fun hc hcs => ?_, fun f hf => ?_⟩
  · rw [Tape.length_cells, hs'.capacity_eq]
  · rw [← hs'.capacity_eq]
    exact Tape.pointer_lt_capacity _
  · exact hs.calls?_eq (h.fits hc) hcs
  · exact hs.calls_fault hf

/-- A run that counts a number down, with the number entered when it waits for it. -/
theorem calls_safe_countdown :
    let m := ofTape (.zeros 1)
    let cs := [.start "oom MOO MOo moo", .execute 9, .enter "7", .execute 99]
    Machine.blank 2 = .ok m ∧ (m.calls cs).1.tape.cells.length = 2 ∧
      m.calls? cs = some (m.calls cs) := by
  have h := calls_safe (.blank (show Machine.blank 2 = .ok (ofTape (.zeros 1)) from rfl))
    [.start "oom MOO MOo moo", .execute 9, .enter "7", .execute 99]
  refine ⟨rfl, h.1, h.2.2.2.2.1 (by decide) fun text ht => ?_⟩
  have : text = "oom MOO MOo moo" := by simpa using ht
  subst this
  decide

end Machine

end MooCode
