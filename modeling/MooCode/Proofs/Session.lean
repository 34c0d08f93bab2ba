/-
  Moo-code — sessions.

  * `Session.Follows s e after`: what `s` does about an event, and `Session.turn_spec`: what a
    turn does to a session whose output has no limit (`After`), and what it leads to.
  * `Session.ahead s stdin`: the machine of `s` with all the lines of `stdin` entered from
    the beginning.
  * `Session.run_finishes`: a session that is not interrupted and stops has run that machine
    to its end, and `Session.run_of_finish`: it stops if that machine has an end.
-/
import MooCode.Proofs.Journal
import MooCode.Proofs.Lines
import MooCode.Proofs.Output
import MooCode.Proofs.Schedules

namespace MooCode

namespace Event
open Console

/-- How a session stops at the event. -/
def exit : Event → Exit
  | failed f => .failed f
  | _ => .finished

/-- What a turn that comes to the event leads to. -/
def turn : Event → Turn
  | running | print _ => .again
  | input _ => .wantsLine
  | e => .stop e.exit

/-- The bytes that the event prints. -/
def bytes : Event → List UInt8
  | print text => Text.Utf8.encode text.toList
  | _ => []

/-- What shows of the event where no details do. -/
def warning (style : Style) (e : Event) : String :=
  style.written 0 ((Session.givenUp e).map Record.ofEntry)

theorem warning_of_not_isFinal (style : Style) {e : Event} (he : e.isFinal = false) :
    e.warning style = "" := by
  cases e with
  | failed => cases he
  | _ => rfl

theorem turn_of_isFinal {e : Event} (he : e.isFinal = true) : e.turn = .stop e.exit := by
  cases e with
  | ended | failed => rfl
  | _ => cases he

end Event

namespace Console

namespace Session

/-- The session `s'` is `s` after a turn that comes to the event `e`: its output has taken what the
    event prints, and its log shows what the journal of the slice does. -/
structure After (s : Session) (e : Event) (s' : Session) : Prop where
  unlimited : s'.output.sink.room = none
  written : s'.output.written = s.output.written ++ e.bytes
  verbosity : s'.verbosity = s.verbosity
  log : ∀ style, s'.shown style = s.shown style ++
    style.written s.verbosity ((s.machine.journal turnCycles).map Record.ofEntry)

/-- Where no details are shown, the log shows how the run has ended. -/
theorem After.shown_eq {s s' : Session} {m : Machine} {e : Event} (h : s.After e s')
    (hx : s.machine.execute turnCycles = (m, e)) (hv : s.verbosity = 0) (style : Style) :
    s'.shown style = s.shown style ++ e.warning style := by
  rw [h.log, hv, style.written_journal_of_hidden (by decide), hx]
  rfl

/-- A session whose output cannot be flushed stops. -/
theorem flushed_eq (s : Session) (next : Turn) :
    s.flushed next = ({ s with output := s.output.flush.1 },
      if s.output.flush.2 then next else .stop (.failed unwritable)) := by
  obtain ⟨machine, output, verbosity, log⟩ := s
  simp only [flushed]
  split <;> next hf => rw [hf]; rfl

/-- A session whose output cannot be written to stops. -/
theorem print_eq (s : Session) (text : String) :
    s.print text = ({ s with output := (s.output.write (Text.Utf8.encode text.toList)).1 },
      if (s.output.write (Text.Utf8.encode text.toList)).2 then .again
      else .stop (.failed unwritable)) := by
  obtain ⟨machine, output, verbosity, log⟩ := s
  simp only [print]
  split <;> next hf => rw [hf]; rfl

/-- To follow the event `e`, the session gives its output what the event prints and comes to
    `after`, the output and its answer.  It stops if that is a refusal. -/
structure Follows (s : Session) (e : Event) (after : Output × Bool) : Prop where
  takes : s.output.Takes e.bytes after
  follow_eq : s.follow e =
    ({ s with output := after.1 }, if after.2 then e.turn else .stop (.failed unwritable))
  pending : e.isPassing = false → after.2 = true → after.1.pending = #[]

/-- **What a session does about an event**: its output is given what the event prints, and is
    flushed before the session wants a line or stops. -/
theorem exists_follows (s : Session) (e : Event) : ∃ after, s.Follows e after := by
  have flush (hb : e.bytes = []) (hf : s.follow e = s.flushed e.turn) :
      s.Follows e s.output.flush := by
    refine ⟨hb ▸ s.output.flush_takes, hf.trans (flushed_eq s _), ?_⟩
    intro _ hok
    exact Output.pending_flush (Prod.ext rfl hok)
  cases e with
  | running =>
    have ht : s.output.Takes [] (s.output, true) :=
      ⟨rfl, fun _ => (List.append_nil _).symm, by simp⟩
    exact ⟨_, ht, rfl, by simp [Event.isPassing]⟩
  | print text => exact ⟨_, s.output.write_takes _, print_eq s text, by simp [Event.isPassing]⟩
  | input | failed | ended | stopped => exact ⟨_, flush rfl rfl⟩

/-- The session after a slice that has come to the event `e` as `m`, before it follows the
    event. -/
def sliced (s : Session) (m : Machine) (e : Event) : Session :=
  { s with
    machine := m
    log := s.log ++ (journal s.verbosity s.machine e).map Record.ofEntry }

theorem turn_eq {s : Session} {m : Machine} {e : Event}
    (h : s.machine.execute turnCycles = (m, e)) : s.turn = (s.sliced m e).follow e := by
  obtain ⟨machine, output, verbosity, log⟩ := s
  simp only [turn, h, sliced]

theorem after_sliced {s : Session} {m : Machine} {e : Event} {o : Output}
    (hx : s.machine.execute turnCycles = (m, e)) (hr : o.sink.room = none)
    (hw : o.written = s.output.written ++ e.bytes) :
    s.After e { s.sliced m e with output := o } where
  unlimited := hr
  written := hw
  verbosity := rfl
  log style := by
    have hj := style.written_journal s.verbosity s.machine
    rw [hx] at hj
    rw [← hj, shown, shown, ← style.written_append]
    simp [sliced]

/-- **What a turn does** if the output has no limit: the slice, and then what its event asks
    for. -/
theorem turn_spec {s : Session} (hr : s.output.sink.room = none) {m : Machine} {e : Event}
    (h : s.machine.execute turnCycles = (m, e)) :
    ∃ s', s.turn = (s', e.turn) ∧ s'.machine = m ∧ s.After e s' ∧
      (e.isPassing = false → s'.output.pending = #[]) := by
  obtain ⟨after, ht, hf, hp⟩ := (s.sliced m e).exists_follows e
  obtain ⟨hu, hok⟩ := ht.unlimited hr
  rw [hok, if_pos rfl] at hf
  exact ⟨_, (turn_eq h).trans hf, rfl, after_sliced h hu (ht.written hok), fun he => hp he hok⟩

/-! ## Turn after turn -/

/-- The interrupt key is never noticed. -/
def never : Signal := fun _ _ => false

section
variable {s s' : Session} {stdin rest : List UInt8}

theorem step_of_turn {turn : Turn} (h : s.turn = (s', turn)) (hw : turn ≠ .wantsLine)
    (stdin : List UInt8) : s.step false stdin = (s', stdin, turn.exit?) := by
  simp only [step, stepIn, h]
  cases turn with
  | wantsLine => exact absurd rfl hw
  | again | stop => rfl

theorem step_of_wantsLine (h : s.turn = (s', .wantsLine)) {supply : Supply}
    (hn : Supply.next stdin = (supply, rest)) : s.step false stdin =
      ((s'.supplied supply).1, rest, (s'.supplied supply).2.exit?) := by
  obtain rfl : (Supply.next stdin).1 = supply := by rw [hn]
  obtain rfl : (Supply.next stdin).2 = rest := by rw [hn]
  simp only [step, stepIn, h]
  rfl

theorem run_of_step (h : s.step false stdin = (s', rest, none)) (fuel turns : Nat) :
    run never (fuel + 1) turns s stdin = run never fuel (turns + 1) s' rest := by
  simp only [run, never, h]

theorem run_of_stop {exit : Exit} (h : s.step false stdin = (s', rest, some exit))
    (fuel turns : Nat) : run never (fuel + 1) turns s stdin = some (s', exit) := by
  simp only [run, never, h]

end

/-- A session in the middle of a run, with an output that has no limit and text on standard
    input, which it is not at the end of unless there is none left. -/
structure Served (s : Session) (stdin : List UInt8) : Prop where
  active : s.machine.status ≠ .idle
  unlimited : s.output.sink.room = none
  text : (Text.Utf8.decodeAll? stdin).isSome = true
  expects : s.machine.Expects (Supply.lines stdin)

/-- The machine of the session with all the lines of `stdin` entered from the beginning. -/
def ahead (s : Session) (stdin : List UInt8) : Machine :=
  s.machine.eager (Supply.lines stdin)

/-- How much more the session can be given. -/
def left (s : Session) (stdin : List UInt8) : Nat :=
  stdin.length + if s.machine.closed then 0 else 1

/-- After a turn that has come to the event `e` as `m`, the session `s` with the standard
    input `stdin` goes on as `s'` with `rest`. -/
structure GoesOn (s : Session) (stdin : List UInt8) (m : Machine) (e : Event) (s' : Session)
    (rest : List UInt8) : Prop where
  run : ∀ fuel turns, run never (fuel + 1) turns s stdin = run never fuel (turns + 1) s' rest
  served : s'.Served rest
  after : s.After e s'
  ahead : s'.ahead rest = m.eager (Supply.lines stdin)
  left_le : s'.left rest ≤ s.left stdin
  left_lt : ∀ r, e = .input r → s'.left rest < s.left stdin

/-- **Before the end of the run a session goes on as the machine with all the lines does**, and
    to wait for input uses some of it up. -/
theorem goesOn {s : Session} {stdin : List UInt8} (hs : s.Served stdin) {m : Machine} {e : Event}
    (hx : s.machine.execute turnCycles = (m, e)) (he : e.isFinal = false) :
    ∃ s' rest, s.GoesOn stdin m e s' rest := by
  obtain ⟨s₁, ht, rfl, ha, -⟩ := turn_spec hs.unlimited hx
  have hi := Machine.execute_active hs.active hx he
  have hl := hs.expects.execute hx
  have hc := Machine.execute_closed hx
  have hleft : s₁.left stdin = s.left stdin := by rw [left, left, hc]
  cases e with
  | stopped => exact absurd rfl (Machine.execute_final hs.active hx).1
  | running | print =>
    exact ⟨s₁, stdin, run_of_step (step_of_turn ht (by simp [Event.turn]) stdin),
      ⟨hi, ha.unlimited, hs.text, hl⟩, ha, rfl, hleft.le, by simp⟩
  | input r =>
    have ho := Machine.execute_input hx
    rcases Supply.next_of_isSome hs.text with ⟨rfl, hn⟩ | ⟨text, rest, hn, hr⟩
    · have hlt : s₁.closeInput.left [] < s.left [] := by
        simp [left, closeInput, Machine.closeInput, ho]
      refine ⟨s₁.closeInput, [], run_of_step (step_of_wantsLine ht hn), ⟨hi, ha.unlimited, rfl, ?_⟩,
        ⟨ha.unlimited, ha.written, ha.verbosity, ha.log⟩, ?_, hlt.le, fun _ _ => hlt⟩
      · exact fun _ => Supply.lines_nil
      · rw [ahead, Supply.lines_nil]; rfl
    · have hlt : (s₁.enter text).left rest < s.left stdin := by
        have := Supply.length_lt_of_next hn
        simp only [left, enter, Machine.enter, hc]
        omega
      refine ⟨s₁.enter text, rest, run_of_step (step_of_wantsLine ht hn), ⟨hi, ha.unlimited, hr, ?_⟩,
        ⟨ha.unlimited, ha.written, ha.verbosity, ha.log⟩, ?_, hlt.le, fun _ _ => hlt⟩
      · exact Machine.expects_of_open (m := s₁.machine.enter text) (hc.trans ho) _
      · rw [Supply.lines_of_next hn]; rfl
  | ended | failed => cases he

/-- At the end of the run a session stops, with an empty buffer. -/
theorem run_of_final {s : Session} {stdin : List UInt8} (hs : s.Served stdin) {m : Machine}
    {e : Event} (hx : s.machine.execute turnCycles = (m, e)) (he : e.isFinal = true) :
    ∃ s', (∀ fuel turns, run never (fuel + 1) turns s stdin = some (s', e.exit)) ∧
      s.After e s' ∧ s'.output.pending = #[] := by
  obtain ⟨s', ht, -, ha, hp⟩ := turn_spec hs.unlimited hx
  rw [Event.turn_of_isFinal he] at ht
  exact ⟨s', run_of_stop (step_of_turn ht (by simp) stdin), ha, hp (Event.isPassing_of_isFinal he)⟩

/-- The bytes of texts, one after the other. -/
def bytes (texts : List String) : List UInt8 :=
  texts.flatMap fun text => Text.Utf8.encode text.toList

theorem bytes_append (texts texts' : List String) :
    bytes (texts ++ texts') = bytes texts ++ bytes texts' :=
  List.flatMap_append

theorem bytes_texts (e : Event) : bytes (Event.texts [e]) = e.bytes := by
  cases e <;> simp [bytes, Event.texts, Event.bytes]

/-- **A session that stops has run to the end of the run**: to where the machine leads that
    has had all the lines from the beginning.  What that prints has come out, and there is
    no more to the log than how it ended. -/
theorem run_finishes {fuel turns : Nat} {s s' : Session} {stdin : List UInt8} {exit : Exit}
    (hs : s.Served stdin) (h : run never fuel turns s stdin = some (s', exit)) :
    ∃ o, (s.ahead stdin).Finishes o ∧ o.event.isFinal = true ∧ exit = o.event.exit ∧
      s'.output.sink.received.toList = s.output.written ++ bytes o.texts ∧
      (s.verbosity = 0 → ∀ style, s'.shown style = s.shown style ++ o.event.warning style) := by
  induction fuel generalizing turns s stdin with
  | zero => cases h
  | succ fuel ih =>
    rcases hx : s.machine.execute turnCycles with ⟨m, e⟩
    cases he : e.isFinal with
    | true =>
      obtain ⟨s₁, hr, ha, hp⟩ := run_of_final hs hx he
      rw [hr] at h
      cases h
      refine ⟨_, (Machine.finishes_eager_of_final hs.expects hx he).2 rfl, he, rfl, ?_,
        ha.shown_eq hx⟩
      have hw := ha.written
      rw [Output.written, hp, ← bytes_texts, Event.texts_of_isFinal he] at hw
      simpa using hw
    | false =>
      obtain ⟨s₁, rest, hg⟩ := goesOn hs hx he
      rw [hg.run] at h
      obtain ⟨o, ho, hf, rfl, hb, hlog⟩ := ih hg.served h
      rw [hg.ahead] at ho
      have ho' := (Machine.finishes_eager hs.active hs.expects hx he).2 ⟨o, ho, rfl⟩
      refine ⟨_, ho', hf, rfl, ?_, ?_⟩
      · rw [hb, hg.after.written, bytes_append, bytes_texts, List.append_assoc]
      · intro hv style
        rw [hlog (hg.after.verbosity.trans hv), hg.after.shown_eq hx hv,
          Event.warning_of_not_isFinal style he, String.append_empty]

/-- **A session stops if the machine has an end that has had all the lines from the
    beginning.** -/
theorem run_of_finish {n : Nat} {s : Session} {stdin : List UInt8} {o : Machine.Outcome}
    (hs : s.Served stdin) (h : Machine.finish n (s.ahead stdin) = some o) :
    ∃ fuel, ∀ turns, (run never fuel turns s stdin).isSome = true := by
  rcases hx : s.machine.execute turnCycles with ⟨m, e⟩
  cases he : e.isFinal with
  | true =>
    obtain ⟨s₁, hr, -⟩ := run_of_final hs hx he
    refine ⟨1, ?_⟩
    intro turns
    rw [hr 0]; rfl
  | false =>
    obtain ⟨s₁, rest, hg⟩ := goesOn hs hx he
    -- either some of the input has been used up, or some of the cycles
    obtain ⟨n', o', ho', hlt⟩ : ∃ n' o', Machine.finish n' (s₁.ahead rest) = some o' ∧
        Prod.Lex (· < ·) (· < ·) (s₁.left rest, n') (s.left stdin, n) := by
      rw [hg.ahead]
      cases hp : e.isPassing with
      | true =>
        have hx' := Machine.execute_eager hs.expects hx (by rintro r rfl; cases hp)
        obtain ⟨n', hn', ho⟩ := Machine.finish_descent (by decide) hx' h
        obtain ⟨o', ho'⟩ := Machine.Outcome.of_after hp ho
        exact ⟨n', o', ho', Prod.Lex.right' _ hg.left_le hn'⟩
      | false =>
        obtain ⟨o', ⟨n', ho'⟩, -⟩ :=
          (Machine.finishes_eager hs.active hs.expects hx he).1 ⟨n, h⟩
        refine ⟨n', o', ho', Prod.Lex.left _ _ ?_⟩
        cases e with
        | input r => exact hg.left_lt r rfl
        | stopped => exact absurd rfl (Machine.execute_final hs.active hx).1
        | running | print => cases hp
        | ended | failed => cases he
    obtain ⟨fuel, hfuel⟩ := run_of_finish hg.served ho'
    refine ⟨fuel + 1, ?_⟩
    intro turns
    rw [hg.run]
    exact hfuel (turns + 1)
termination_by (s.left stdin, n)
decreasing_by exact hlt

end Session

end Console

end MooCode
