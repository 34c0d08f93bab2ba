/-
  Moo-code — input is read in the order it was entered.

  * `Attempt`: a machine about to serve a request, with what it takes from the queue
    (`Attempt.consumed`) and what it leaves there (`Attempt.rest`).
  * `Machine.attempts m cs`: the attempts that the calls `cs` to `m` make, in the order they are
    made: by an instruction that reads, or by a slice that finds the machine waiting.
  * `Takes r closed queue x taken`: from the queue `queue`, a request `r` that comes out as `x`
    takes `taken`.  `Lined.takes`: so it does if the queue is empty or ends with a newline.
  * `consumed_cycle`, `consumed_execute`, `consumed_calls`: what leaves the queue is what the
    attempts take, of one cycle, of a slice and of calls in a row.
  * `Machine.calls_fifo`: what has been read, followed by the queue, is what has been entered.
-/
import MooCode.Proofs.Queue
import MooCode.Proofs.Suspension

namespace MooCode

/-- The lines that the calls `cs` enter. -/
def Call.lines (cs : List Call) : List String :=
  cs.filterMap fun
    | .enter text => some text
    | _ => none

/-- The outcome of an attempt that found no input. -/
inductive Reading.Starved : (x : Reading) → Prop
  | pending : Starved .pending
  | refused {f : Fault} : f.cause = .inputPastEnd → Starved (.refused f)

/-- The event of a run that found no input. -/
inductive Event.Starved : (e : Event) → Prop
  | input (r : Request) : Starved (.input r)
  | failed {f : Fault} : f.cause = .inputPastEnd → Starved (.failed f)

/-! ## Attempts -/

/-- A machine about to serve a request. -/
structure Attempt where
  machine : Machine
  request : Request

namespace Attempt

/-- How the attempt comes out. -/
def reading (a : Attempt) : Reading :=
  (a.machine.read a.request).2

/-- The queue after the attempt. -/
def rest (a : Attempt) : List Char :=
  (a.machine.read a.request).1.input

/-- The characters before those that stay in the queue. -/
def consumed (a : Attempt) : List Char :=
  a.machine.input.take (a.machine.input.length - a.rest.length)

theorem consumed_append_rest (a : Attempt) : a.consumed ++ a.rest = a.machine.input := by
  have hs : a.rest <:+ a.machine.input := Machine.read_suffix (r := a.request) rfl
  exact List.suffix_iff_eq_append.1 hs

/-- An attempt and what it takes: what was in the queue before what is there now. -/
theorem consumed_append {m m' : Machine} {r : Request} {x : Reading} (h : m.read r = (m', x)) :
    consumed ⟨m, r⟩ ++ m'.input = m.input := by
  have ha := consumed_append_rest ⟨m, r⟩
  simpa only [rest, h] using ha

theorem consumed_eq {m m' : Machine} {r : Request} {x : Reading} (h : m.read r = (m', x))
    {taken : List Char} (hi : m.input = taken ++ m'.input) : consumed ⟨m, r⟩ = taken :=
  List.append_cancel_right ((consumed_append h).trans hi)

end Attempt

/-- What a request takes from the queue, depending on how it comes out: its first
    character, its first line with the newline, or nothing if nothing is there. -/
inductive Takes : (r : Request) → (closed : Bool) → (queue : List Char) → (x : Reading) →
    (taken : List Char) → Prop
  | char {closed : Bool} {c : Char} {rest : List Char} :
      Takes .char closed (c :: rest) .taken [c]
  | integer {closed : Bool} {l rest : List Char} {v : Cell} : '\n' ∉ l →
      Cell.ofDecimal? (Text.trim (l ++ ['\n'])) = some v →
      Takes .integer closed (l ++ '\n' :: rest) .taken (l ++ ['\n'])
  | illegal {closed : Bool} {l rest : List Char} : '\n' ∉ l →
      Cell.ofDecimal? (Text.trim (l ++ ['\n'])) = none →
      Takes .integer closed (l ++ '\n' :: rest)
        (.refused ⟨.illegalInput, none, String.ofList (Text.trim (l ++ ['\n']))⟩) (l ++ ['\n'])
  | pending {r : Request} : Takes r false [] .pending []
  | pastEnd {r : Request} : Takes r true [] (.refused { cause := .inputPastEnd }) []

/-- A request finds nothing only in an empty queue. -/
theorem Takes.queue_eq_nil {r : Request} {closed : Bool} {queue : List Char} {x : Reading}
    {taken : List Char} (h : Takes r closed queue x taken) (hx : x.Starved) : queue = [] := by
  cases h with
  | pending | pastEnd => rfl
  | char | integer _ _ => cases hx
  | illegal _ _ =>
    cases hx with
    | refused hf => cases hf

namespace Machine

theorem takes_starve {m : Machine} {r : Request} (h : m.read r = m.starve)
    (hi : m.input = []) : Takes r m.closed m.input (m.read r).2 (Attempt.consumed ⟨m, r⟩) := by
  rw [Attempt.consumed_eq h (show m.input = [] ++ m.input from rfl), hi, h, starve]
  cases m.closed with
  | false => exact .pending
  | true => exact .pastEnd

/-- An integer read finds no line only in an empty queue. -/
theorem Lined.nextLine?_eq_none {m : Machine} (h : m.Lined) (hn : m.nextLine? = none) :
    m.input = [] := by
  by_contra hne
  have hlast := h _ (List.getLast?_eq_some_getLast hne)
  unfold nextLine? at hn
  split at hn
  · cases hn
  · next l hs =>
    rw [List.span_eq_takeWhile_dropWhile] at hs
    have hd : m.input.dropWhile (fun c => decide (c ≠ '\n')) = [] := (Prod.mk.inj hs).2
    have hc := List.dropWhile_eq_nil_iff.1 hd _ (List.getLast_mem hne)
    rw [hlast] at hc
    simp at hc

/-- **A character request takes the first character, an integer request the first line**, and
    a request finds nothing only in an empty queue. -/
theorem Lined.takes {m : Machine} (h : m.Lined) (r : Request) :
    Takes r m.closed m.input (m.read r).2 (Attempt.consumed ⟨m, r⟩) := by
  cases r with
  | char =>
    rcases hi : m.input with _ | ⟨c, rest⟩
    · exact hi ▸ takes_starve (by simp only [read, readChar, hi]) hi
    · have hr : m.read .char =
          ({ m with tape := m.tape.set (Cell.ofChar c), input := rest }, .taken) := by
        simp only [read, readChar, hi]
      rw [Attempt.consumed_eq hr (show m.input = [c] ++ rest from hi), hr]
      exact .char
  | integer =>
    rcases hn : m.nextLine? with _ | ⟨line, rest⟩
    · exact takes_starve (by simp only [read, readInteger, hn]) (h.nextLine?_eq_none hn)
    · obtain ⟨l, rfl, hl, hi⟩ := h.nextLine?_eq hn
      have hi' : m.input = (l ++ ['\n']) ++ rest := by
        rw [hi, List.append_assoc, List.singleton_append]
      rcases hv : Cell.ofDecimal? (Text.trim (l ++ ['\n'])) with _ | v
      · have hr : m.read .integer = ({ m with input := rest },
            .refused ⟨.illegalInput, none, String.ofList (Text.trim (l ++ ['\n']))⟩) := by
          simp only [read, readInteger, hn, hv]
        rw [Attempt.consumed_eq hr hi', hr, hi]
        exact .illegal hl hv
      · have hr : m.read .integer = ({ m with tape := m.tape.set v, input := rest }, .taken) := by
          simp only [read, readInteger, hn, hv]
        rw [Attempt.consumed_eq hr hi', hr, hi]
        exact .integer hl hv

/-! ## The attempts of a run -/

/-- The attempt that the next cycle makes, if it performs an instruction that reads. -/
def cycleAttempts (m : Machine) : List Attempt :=
  (m.upcoming.request? m.tape.here).toList.map (Attempt.mk m.fetched)

/-- The attempts that `Machine.advance cycles` makes. -/
def advanceAttempts : (cycles : Nat) → Machine → List Attempt
  | 0, _ => []
  | n + 1, m =>
    m.cycleAttempts ++
      match m.cycle with
      | (m, none) => advanceAttempts n m
      | (_, some _) => []

/-- The attempts that `Machine.execute cycles` makes. -/
def executeAttempts (m : Machine) (cycles : Nat) : List Attempt :=
  match m.status with
  | .idle => []
  | .running => advanceAttempts cycles m
  | .waiting r _ =>
    ⟨m, r⟩ ::
      match m.read r with
      | (m, .taken) => advanceAttempts cycles { m with status := .running }
      | _ => []

/-- The attempts that the call `c` makes. -/
def callAttempts (m : Machine) : (c : Call) → List Attempt
  | .execute cycles => m.executeAttempts cycles
  | _ => []

/-- The attempts that the calls `cs` make. -/
def attempts (m : Machine) : (cs : List Call) → List Attempt
  | [] => []
  | c :: cs => m.callAttempts c ++ (m.call c).1.attempts cs

/-! ## What leaves the queue -/

theorem input_demand (m : Machine) (r : Request) :
    (m.demand r).1.input = (m.read r).1.input := by
  unfold demand
  split <;> next hr => rw [hr]

/-- **A cycle takes from the queue what the attempt it makes takes.** -/
theorem consumed_cycle (m : Machine) :
    m.cycleAttempts.flatMap Attempt.consumed ++ m.cycle.1.input = m.input := by
  rw [cycle_eq, input_settle, cycleAttempts, performed]
  rcases hq : m.upcoming.request? m.tape.here with _ | r
  · exact perform_input (m := m.fetched) hq _
  · rw [perform_of_request (m := m.fetched) hq, input_demand]
    simp only [Option.toList_some, List.map_cons, List.map_nil, List.flatMap_singleton]
    exact Attempt.consumed_append (m := m.fetched) rfl

theorem consumed_advance (n : Nat) (m : Machine) :
    (advanceAttempts n m).flatMap Attempt.consumed ++ (advance n m).1.input = m.input := by
  induction n generalizing m with
  | zero => rfl
  | succ n ih =>
    have hs := m.consumed_cycle
    simp only [advanceAttempts, advance]
    rcases hc : m.cycle with ⟨m', _ | e⟩ <;> rw [hc] at hs
    · simp only [List.flatMap_append, List.append_assoc]
      rw [ih m', hs]
    · simpa using hs

/-- A slice takes from the queue what its attempts take. -/
theorem consumed_execute (m : Machine) (n : Nat) :
    (m.executeAttempts n).flatMap Attempt.consumed ++ (m.execute n).1.input = m.input := by
  rcases m.execute_cases with ⟨hs, hx⟩ | ⟨hs, hx⟩ |
    ⟨r, line, hs, ⟨m', hr, hx⟩ | ⟨hr, hx⟩ | ⟨m', f, hr, hx⟩⟩ <;>
    simp only [executeAttempts, hs, hx]
  · rfl
  · exact consumed_advance n m
  · -- the read that was waited for comes before those of the slice's cycles
    have ha := Attempt.consumed_append hr
    simp only [hr, List.flatMap_cons, List.append_assoc]
    rw [consumed_advance]
    exact ha
  · simp only [hr, List.flatMap_singleton]
    exact Attempt.consumed_append hr
  · have ha := Attempt.consumed_append hr
    simp only [hr, List.flatMap_singleton]
    exact ha

/-- A call takes from the queue what its attempts take, and puts there the line it enters. -/
theorem consumed_call (m : Machine) (c : Call) :
    (m.callAttempts c).flatMap Attempt.consumed ++ (m.call c).1.input =
      m.input ++ queued (Call.lines [c]) := by
  cases c with
  | start text =>
    simp only [call, callAttempts, start]
    split <;> simp [attempt, Call.lines, queued]
  | reset =>
    simp only [call, callAttempts, reset]
    split <;> simp [attempt, Call.lines, queued]
  | enter text => simp [call, callAttempts, enter, Call.lines, queued]
  | closeInput => simp [call, callAttempts, closeInput, Call.lines, queued]
  | execute n =>
    simp only [call, callAttempts, consumed_execute]
    simp [Call.lines, queued]

/-- **What the attempts of calls in a row take, followed by what they leave in the queue, is what
    was there and what they enter.** -/
theorem consumed_calls (m : Machine) (cs : List Call) :
    (m.attempts cs).flatMap Attempt.consumed ++ (m.calls cs).1.input =
      m.input ++ queued (Call.lines cs) := by
  induction cs generalizing m with
  | nil => simp [attempts, calls, Call.lines, queued]
  | cons c cs ih =>
    have hl : queued (Call.lines (c :: cs)) =
        queued (Call.lines [c]) ++ queued (Call.lines cs) := by
      rw [Call.lines, ← List.singleton_append, List.filterMap_append, queued, List.flatMap_append]
      rfl
    simp only [attempts, calls, List.flatMap_append, List.append_assoc]
    rw [ih, ← List.append_assoc, consumed_call, hl, List.append_assoc]

/-! ## The queue at an attempt -/

theorem mem_cycleAttempts_suffix {m : Machine} {a : Attempt} (h : a ∈ m.cycleAttempts) :
    a.machine.input <:+ m.input := by
  obtain ⟨r, -, rfl⟩ := List.mem_map.1 h
  exact List.suffix_rfl

theorem mem_advanceAttempts_suffix {n : Nat} {m : Machine} {a : Attempt}
    (h : a ∈ advanceAttempts n m) : a.machine.input <:+ m.input := by
  induction n generalizing m with
  | zero => cases h
  | succ n ih =>
    have hs := m.cycle_suffix
    simp only [advanceAttempts, List.mem_append] at h
    rcases h with h | h
    · exact mem_cycleAttempts_suffix h
    · rcases hc : m.cycle with ⟨m', _ | e⟩ <;> rw [hc] at h hs
      · exact (ih h).trans hs
      · cases h

theorem mem_executeAttempts_suffix {m : Machine} {n : Nat} {a : Attempt}
    (h : a ∈ m.executeAttempts n) : a.machine.input <:+ m.input := by
  unfold executeAttempts at h
  split at h
  · cases h
  · exact mem_advanceAttempts_suffix h
  · rcases List.mem_cons.1 h with rfl | h
    · exact List.suffix_rfl
    · split at h
      · next hr =>
        have hs := read_suffix hr
        exact (mem_advanceAttempts_suffix h).trans hs
      · cases h

/-- **At every attempt, the queue is empty or ends with a newline.** -/
theorem Lined.attempts {m : Machine} (h : m.Lined) {cs : List Call} {a : Attempt}
    (ha : a ∈ m.attempts cs) : a.machine.Lined := by
  induction cs generalizing m with
  | nil => cases ha
  | cons c cs ih =>
    rcases List.mem_append.1 ha with ha | ha
    · cases c with
      | execute n => exact h.suffix (mem_executeAttempts_suffix ha)
      | start _ | reset | enter _ | closeInput => cases ha
    · exact ih (h.call c) ha

/-- Such a queue is a line and what follows it, unless it is empty. -/
theorem Lined.mem_newline {m : Machine} (h : m.Lined) (hne : m.input ≠ []) : '\n' ∈ m.input := by
  have hlast := h _ (List.getLast?_eq_some_getLast hne)
  exact hlast ▸ List.getLast_mem hne

/-! ## Runs that find no input -/

/-- Only a read can find that no more input comes. -/
theorem perform_fail_of_silent {m : Machine} {i : Instruction}
    (h : i.request? m.tape.here = none) {line : Nat} {f : Fault}
    (hf : (m.perform i line).2 = .fail f) : f.cause ≠ .inputPastEnd := by
  have htape : ∀ {g : Fault}, g.OfTape → g.cause ≠ .inputPastEnd := by
    intro g hg
    obtain hc | hc := hg.cause <;> simp [hc]
  have hjump : ∀ {l : Nat} {g : Fault}, (m.jump l).2 = .fail g → g.cause ≠ .inputPastEnd := by
    intro l g hg
    unfold jump Program.goto at hg
    by_cases hl : l < m.program.length
    · simp [hl] at hg
    · simp only [hl, if_false, Effect.fail.injEq] at hg
      subst hg
      simp [Program.outOfRange]
  cases i with
  | jumpBack =>
    simp only [perform] at hf
    split at hf
    · exact hjump hf
    · cases hf
      simp
  | left => exact htape (Tape.back_fault (withTape_fail hf))
  | right => exact htape (Tape.forward_fault (withTape_fail hf))
  | increment => exact htape (Tape.increment_fault (withTape_fail hf))
  | decrement => exact htape (Tape.decrement_fault (withTape_fail hf))
  | exec =>
    cases hf
    simp
  | character =>
    have h0 : m.tape.here ≠ 0 := by
      intro h0
      simp [Instruction.request?, h0] at h
    simp only [perform, if_neg h0, printChar] at hf
    split at hf
    · cases hf
    · cases hf
      simp
  | mark =>
    simp only [perform] at hf
    split at hf
    · split at hf
      · exact hjump hf
      · cases hf
        simp
    · cases hf
  | transfer =>
    simp only [perform] at hf
    split at hf <;> cases hf
  | clear | printInt | halt => cases hf
  | readInt => cases h

theorem Lined.read_starved {m m' : Machine} (h : m.Lined) {r : Request} {x : Reading}
    (hr : m.read r = (m', x)) (hx : x.Starved) : m'.input = [] := by
  have ht := h.takes r
  have hs := read_suffix hr
  rw [hr] at ht
  rw [ht.queue_eq_nil hx] at hs
  exact List.suffix_nil.1 hs

theorem Lined.cycle_starved {m m' : Machine} (h : m.Lined) {e : Event}
    (hc : m.cycle = (m', some e)) (he : e.Starved) : m'.input = [] := by
  have hl : m.fetched.Lined := h
  rw [cycle_eq] at hc
  rcases hq : m.upcoming.request? m.tape.here with _ | r
  · -- no other instruction waits, or fails for want of input
    rcases hp : m.performed.2 with _ | text | r | _ | f <;> rw [hp] at hc <;> cases hc <;> cases he
    · exact absurd hp (perform_ne_await (m := m.fetched) hq _ r)
    · next hf =>
      have hne := perform_fail_of_silent (m := m.fetched) hq hp
      exact absurd hf hne
  · have hd : m.performed = m.fetched.demand r := perform_of_request (m := m.fetched) hq _
    rw [hd, demand] at hc
    rcases hr : m.fetched.read r with ⟨m₁, _ | _ | f⟩ <;> rw [hr] at hc <;> cases hc
    · have hi := hl.read_starved hr .pending
      exact hi
    · cases he with
      | failed hf =>
        have hi := hl.read_starved hr (.refused hf)
        exact hi

theorem Lined.advance_starved {m m' : Machine} (h : m.Lined) {n : Nat} {e : Event}
    (hx : advance n m = (m', e)) (he : e.Starved) : m'.input = [] := by
  obtain ⟨a, d, -, ha, hd⟩ := advance_event hx (by rintro rfl; cases he)
  have hs : (advance a m).1.Lined := h.suffix (advance_suffix a m)
  rw [ha] at hs
  exact hs.cycle_starved hd he

/-- **A run waits, or fails for want of input, only when the queue is empty.** -/
theorem Lined.execute_starved {m m' : Machine} (h : m.Lined) {n : Nat} {e : Event}
    (hx : m.execute n = (m', e)) (he : e.Starved) : m'.input = [] := by
  rcases m.execute_cases with ⟨-, hm⟩ | ⟨-, hm⟩ |
    ⟨r, line, -, ⟨m₁, hr, hm⟩ | ⟨hr, hm⟩ | ⟨m₁, f, hr, hm⟩⟩ <;> rw [hm] at hx
  · cases hx
    cases he
  · exact h.advance_starved hx he
  · have hl : m₁.Lined := h.suffix (read_suffix hr)
    exact advance_starved (m := { m₁ with status := .running }) hl hx he
  · cases hx
    exact h.read_starved hr .pending
  · cases hx
    cases he with
    | failed hf =>
      have hi := h.read_starved hr (.refused hf)
      exact hi

/-! ## The order of input -/

/-- **Input is a lossless queue.**  Whatever is asked of a machine that begins without input:
    * what its reads have taken so far, in order, followed by what is in the queue, is all the
      lines that have been entered, each with a newline after it;
    * an attempt to read a character takes the first character, an attempt to read an integer,
      accepted or not, takes the first line with its newline, and an attempt takes nothing, and
      waits or fails, only if there is nothing;
    * the queue is empty or ends with a newline, now and at every attempt, so none finds a
      line without a newline at the end of the input;
    * a slice that comes to wait, or fails for want of input, leaves the queue empty. -/
theorem calls_fifo {capacity : Nat} {m : Machine} (hm : Fresh capacity m) (cs : List Call) :
    (m.attempts cs).flatMap Attempt.consumed ++ (m.calls cs).1.input = queued (Call.lines cs) ∧
    (∀ a ∈ m.attempts cs,
      Takes a.request a.machine.closed a.machine.input a.reading a.consumed) ∧
    (m.calls cs).1.Lined ∧
    (∀ a ∈ m.attempts cs, a.machine.Lined ∧
      ¬(a.machine.closed = true ∧ a.machine.input ≠ [] ∧ '\n' ∉ a.machine.input)) ∧
    ∀ n m' e, (m.calls cs).1.execute n = (m', e) → e.Starved → m'.input = [] := by
  have hl := hm.lined
  refine ⟨?_, ?_, hl.calls cs, ?_, ?_⟩
  · have hi : m.input = [] := by
      obtain ⟨n, -, rfl⟩ := hm.eq
      rfl
    rw [consumed_calls, hi, List.nil_append]
  · intro a ha
    exact (hl.attempts ha).takes a.request
  · intro a ha
    refine ⟨hl.attempts ha, ?_⟩
    rintro ⟨-, hne, hn⟩
    exact hn ((hl.attempts ha).mem_newline hne)
  · intro n m' e hx he
    exact (hl.calls cs).execute_starved hx he

/-- A line that is waited for, one that an execute instruction asks for and that is no integer,
    and a character that a second run reads. -/
theorem calls_fifo_two_runs :
    let m := ofTape (.zeros 0)
    let cs := [.start "oom mOO", .execute 9, .enter "11", .enter "x", .enter "y", .execute 9,
      .reset, .start "Moo", .execute 9]
    Machine.blank 1 = .ok m ∧ (m.calls cs).1.input = ['\n'] ∧
      (m.attempts cs).map (fun a => (a.request, a.consumed)) =
        [(.integer, []), (.integer, ['1', '1', '\n']), (.integer, ['x', '\n']), (.char, ['y'])] ∧
      (m.attempts cs).flatMap Attempt.consumed ++ (m.calls cs).1.input =
        queued ["11", "x", "y"] := by
  intro m cs
  have hf := (calls_fifo (.blank (show Machine.blank 1 = .ok m from rfl)) cs).1
  exact ⟨rfl, by decide, by decide, hf⟩

end Machine

end MooCode
