/-
  Moo-code — nothing that a run prints is lost.

  * `Session.events signal fuel turns s stdin`: what the slices of a session come to, one event for
    each turn that is not an interrupt.
  * `Machine.attended n m stdin`: the same for a run that nothing stops from outside.
    `events_isPrefix`: a session goes through a part of that run, and `events_never`: through all
    of it if it is not interrupted and its output refuses nothing.
  * `Session.step_cases`: a turn goes on, stops with an empty buffer, or meets an output that
    refuses.  `Session.run_takes`: so does a session.
  * `Options.run_lossless`: when the command stops, what the run has printed has come out, or a
    failure to write is reported.
-/
import MooCode.Proofs.Command
import MooCode.Proofs.Sound

namespace MooCode

/-! ## Runs that nothing stops -/

namespace Machine
open Console

/-- The machine that goes on after the event, and the standard input that is left: a machine that
    waits is given the next line.  None goes on after a final event or a line that is no text. -/
def attend (m : Machine) (stdin : List UInt8) : (e : Event) → Option (Machine × List UInt8)
  | .running | .print _ => some (m, stdin)
  | .input _ =>
    match Supply.next stdin with
    | (.line text, rest) => some (m.enter text, rest)
    | (.nothing, rest) => some (m.closeInput, rest)
    | (.malformed, _) => none
  | _ => none

/-- The events of the first `n` turns of the run with the standard input `stdin`. -/
def attended : (n : Nat) → Machine → (stdin : List UInt8) → List Event
  | 0, _, _ => []
  | n + 1, m, stdin =>
    let after := m.execute turnCycles
    after.2 ::
      match after.1.attend stdin after.2 with
      | some (m, rest) => attended n m rest
      | none => []

theorem not_isFinal_of_attend {m : Machine} {stdin : List UInt8} {e : Event}
    {next : Machine × List UInt8} (h : m.attend stdin e = some next) : e.isFinal = false := by
  cases e with
  | ended | failed => cases h
  | _ => rfl

/-- To be attended to changes nothing but the input. -/
theorem attend_eq {m m' : Machine} {stdin rest : List UInt8} {e : Event}
    (h : m.attend stdin e = some (m', rest)) : ∃ input closed, m' = m.withInput input closed := by
  cases e with
  | running | print =>
    cases h
    exact ⟨_, _, rfl⟩
  | input r =>
    simp only [attend] at h
    split at h <;> cases h
    · exact ⟨_, _, rfl⟩
    · exact ⟨_, _, rfl⟩
  | _ => cases h

/-- A run that nothing stops is given up for none but its own faults. -/
theorem Sound.attended_fault {capacity : Nat} {m : Machine} (h : Sound capacity m) {n : Nat}
    {stdin : List UInt8} {f : Fault} (hf : .failed f ∈ attended n m stdin) :
    f.cause ≠ .internalError := by
  induction n generalizing m stdin with
  | zero => cases hf
  | succ n ih =>
    obtain hf | hf := List.mem_cons.1 hf
    · exact h.execute_fault hf.symm
    · have hx : Sound capacity (m.execute turnCycles).1 := (stable_sound capacity).execute h _
      split at hf
      · next m' rest ha =>
        obtain ⟨input, closed, rfl⟩ := attend_eq ha
        exact ih (m := (m.execute turnCycles).1.withInput input closed)
          ⟨hx.capacity_eq, hx.program⟩ hf
      · cases hf

end Machine

namespace Console

/-! ## What a session goes through -/

namespace Session

/-- The events of at most `fuel` turns, of which `turns` have been before.  A turn that is an
    interrupt has none. -/
def events (signal : Signal) :
    (fuel turns : Nat) → Session → (stdin : List UInt8) → List Event
  | 0, _, _, _ => []
  | fuel + 1, turns, s, stdin =>
    let interrupted := signal turns s.output.sink.received.size
    (if interrupted then [] else [(s.machine.execute turnCycles).2]) ++
      match s.step interrupted stdin with
      | (_, _, some _) => []
      | (s, stdin, none) => events signal fuel (turns + 1) s stdin

/-- A turn that is an interrupt flushes the output and stops. -/
theorem step_interrupted (s : Session) (stdin : List UInt8) :
    s.step true stdin = ({ s with output := s.output.flush.1 }, stdin,
      some (if s.output.flush.2 then .interrupted s.machine.program.cursor
        else .failed unwritable)) := by
  simp only [step, stepIn, interrupt, flushed_eq, if_true]
  cases s.output.flush.2 <;> rfl

/-- Any other turn meets an output that refuses, goes on as the run does, or stops with an empty
    buffer. -/
theorem step_cases {s : Session} {m : Machine} {e : Event}
    (hx : s.machine.execute turnCycles = (m, e)) (stdin : List UInt8) : ∃ s₁ : Session, ∃ rest,
    (s.output.Takes e.bytes (s₁.output, false) ∧
      s.step false stdin = (s₁, rest, some (.failed unwritable))) ∨
    (s.output.Takes e.bytes (s₁.output, true) ∧
      ((m.attend stdin e = some (s₁.machine, rest) ∧ s.step false stdin = (s₁, rest, none)) ∨
      (m.attend stdin e = none ∧ s₁.output.pending = #[] ∧ ∃ exit,
        s.step false stdin = (s₁, rest, some exit) ∧
          (e.turn = .stop exit ∨ exit = .failed unreadable)))) := by
  obtain ⟨⟨o, ok⟩, ht, hf, hp⟩ := (s.sliced m e).exists_follows e
  rw [← turn_eq hx] at hf
  have ht : s.output.Takes e.bytes (o, ok) := ht
  -- the session after the turn, before it is given a line
  generalize hs : { s.sliced m e with output := o } = s₁ at hf
  have hm : s₁.machine = m := by rw [← hs]; rfl
  have ho : s₁.output = o := by rw [← hs]
  subst ho
  cases ok with
  | false =>
    exact ⟨s₁, stdin, Or.inl ⟨ht, step_of_turn hf (by simp) stdin⟩⟩
  | true =>
    cases e with
    | running | print =>
      exact ⟨s₁, stdin, Or.inr ⟨ht, Or.inl ⟨by rw [hm]; rfl,
        step_of_turn hf (by simp [Event.turn]) stdin⟩⟩⟩
    | input r =>
      rcases hn : Supply.next stdin with ⟨text | _ | _, rest⟩
      · refine ⟨s₁.enter text, rest, Or.inr ⟨ht, Or.inl ⟨?_, step_of_wantsLine hf hn⟩⟩⟩
        simp only [Machine.attend, hn, ← hm]
        rfl
      · refine ⟨s₁.closeInput, rest, Or.inr ⟨ht, Or.inl ⟨?_, step_of_wantsLine hf hn⟩⟩⟩
        simp only [Machine.attend, hn, ← hm]
        rfl
      · refine ⟨s₁, rest, Or.inr ⟨ht, Or.inr ⟨?_, hp rfl rfl, _, step_of_wantsLine hf hn,
          Or.inr rfl⟩⟩⟩
        simp only [Machine.attend, hn]
    | ended | stopped | failed =>
      exact ⟨s₁, stdin, Or.inr ⟨ht, Or.inr ⟨rfl, hp rfl rfl, _,
        step_of_turn hf (by simp [Event.turn]) stdin, Or.inl rfl⟩⟩⟩

section
variable {signal : Signal} {turns : Nat} {s : Session}

theorem events_of_interrupt (h : signal turns s.output.sink.received.size = true) (fuel : Nat)
    (stdin : List UInt8) : events signal (fuel + 1) turns s stdin = [] := by
  simp [events, h, step_interrupted]

theorem events_of_slice (h : signal turns s.output.sink.received.size = false) {m : Machine}
    {e : Event} (hx : s.machine.execute turnCycles = (m, e)) (fuel : Nat) (stdin : List UInt8) :
    events signal (fuel + 1) turns s stdin = e ::
      match s.step false stdin with
      | (_, _, some _) => []
      | (s, stdin, none) => events signal fuel (turns + 1) s stdin := by
  simp [events, h, hx]

end

/-- **A session goes through a part of the run that nothing stops.** -/
theorem events_isPrefix (signal : Signal) (fuel more turns : Nat) (s : Session)
    (stdin : List UInt8) :
    s.events signal fuel turns stdin <+: s.machine.attended (fuel + more) stdin := by
  induction fuel generalizing turns s stdin with
  | zero => exact List.nil_prefix
  | succ fuel ih =>
    cases h : signal turns s.output.sink.received.size with
    | true =>
      rw [events_of_interrupt h]
      exact List.nil_prefix
    | false =>
      rcases hx : s.machine.execute turnCycles with ⟨m, e⟩
      simp only [events_of_slice h hx, Nat.add_right_comm fuel 1 more, Machine.attended, hx,
        List.cons_prefix_cons, true_and]
      obtain ⟨s₁, rest, ⟨-, hst⟩ | ⟨-, ⟨ha, hst⟩ | ⟨ha, -, exit, hst, -⟩⟩⟩ := step_cases hx stdin
      · simp only [hst, List.nil_prefix]
      · simp only [hst, ha]
        exact ih _ s₁ rest
      · simp only [hst, List.nil_prefix]

/-- **A session that is not interrupted and whose output refuses nothing goes through all of
    it.** -/
theorem events_never (fuel turns : Nat) {s : Session} (hr : s.output.sink.room = none)
    (stdin : List UInt8) :
    s.events never fuel turns stdin = s.machine.attended fuel stdin := by
  induction fuel generalizing turns s stdin with
  | zero => rfl
  | succ fuel ih =>
    rcases hx : s.machine.execute turnCycles with ⟨m, e⟩
    have hsig : never turns s.output.sink.received.size = false := rfl
    simp only [events_of_slice hsig hx, Machine.attended, hx, List.cons.injEq, true_and]
    obtain ⟨s₁, rest, ⟨ht, -⟩ | ⟨ht, ⟨ha, hst⟩ | ⟨ha, -, exit, hst, -⟩⟩⟩ := step_cases hx stdin
    · cases (ht.unlimited hr).2
    · simp only [hst, ha]
      exact ih _ (ht.unlimited hr).1 rest
    · simp only [hst, ha]

/-! ## What a session leaves behind -/

/-- Why a session whose output has taken everything stops: because of the run, which has come to
    the events `es`, or of something outside that is not the output. -/
inductive Settled (es : List Event) : (exit : Exit) → Prop
  | finished : .ended ∈ es → Settled es .finished
  | failed {f : Fault} : .failed f ∈ es → Settled es (.failed f)
  | interrupted (line : Nat) : Settled es (.interrupted line)
  | unreadable : Settled es (.failed unreadable)

theorem Settled.cons {es : List Event} {exit : Exit} (h : Settled es exit) (e : Event) :
    Settled (e :: es) exit := by
  cases h with
  | finished h => exact .finished (List.mem_cons_of_mem e h)
  | failed h => exact .failed (List.mem_cons_of_mem e h)
  | interrupted line => exact .interrupted line
  | unreadable => exact .unreadable

theorem settled_of_turn {e : Event} {exit : Exit} (he : e ≠ .stopped)
    (h : e.turn = .stop exit) : Settled [e] exit := by
  cases e with
  | ended =>
    cases h
    exact .finished (List.mem_singleton.2 rfl)
  | failed f =>
    cases h
    exact .failed (List.mem_singleton.2 rfl)
  | stopped => exact absurd rfl he
  | _ => cases h

/-- The run does not fail as an output that refuses makes a session fail. -/
theorem Settled.ne_unwritable {es : List Event} {exit : Exit} (h : Settled es exit)
    (hf : ∀ f, .failed f ∈ es → f.cause ≠ .internalError) : exit ≠ .failed unwritable := by
  cases h with
  | failed he =>
    intro hu
    cases hu
    exact hf _ he rfl
  | finished | interrupted => simp
  | unreadable => decide

/-- **When a session stops, its output has taken all that the run has printed, or refuses and the
    session says so.** -/
theorem run_takes {signal : Signal} {fuel turns : Nat} {s s' : Session} {stdin : List UInt8}
    {exit : Exit} (hs : s.machine.status ≠ .idle)
    (h : run signal fuel turns s stdin = some (s', exit)) :
    ∃ ok, s.output.Takes (bytes (Event.texts (s.events signal fuel turns stdin))) (s'.output, ok) ∧
      (ok = true → s'.output.pending = #[] ∧ Settled (s.events signal fuel turns stdin) exit) ∧
      (ok = false → exit = .failed unwritable) := by
  induction fuel generalizing turns s stdin with
  | zero => cases h
  | succ fuel ih =>
    rw [run] at h
    cases hsig : signal turns s.output.sink.received.size with
    | true =>
      rw [hsig, step_interrupted] at h
      cases h
      rw [events_of_interrupt hsig]
      refine ⟨s.output.flush.2, s.output.flush_takes, ?_, ?_⟩
      · intro hok
        rw [hok]
        exact ⟨Output.pending_flush (Prod.ext rfl hok), .interrupted _⟩
      · intro hok
        rw [hok]
        rfl
    | false =>
      rcases hx : s.machine.execute turnCycles with ⟨m, e⟩
      rw [hsig] at h
      rw [events_of_slice hsig hx, Event.texts_cons, bytes_append, bytes_texts]
      obtain ⟨s₁, rest, ⟨ht, hst⟩ | ⟨ht, ⟨ha, hst⟩ | ⟨-, hp, exit', hst, he⟩⟩⟩ :=
        step_cases hx stdin
      · -- the output refuses what the slice printed, or what was left in the buffer
        simp only [hst] at h ⊢
        cases h
        refine ⟨false, ht.refused_mono ⟨_, rfl⟩, ?_, fun _ => rfl⟩
        intro hok
        cases hok
      · simp only [hst] at h ⊢
        have hs₁ : s₁.machine.status ≠ .idle := by
          obtain ⟨input, closed, hm⟩ := Machine.attend_eq ha
          have ha := Machine.execute_active hs hx (Machine.not_isFinal_of_attend ha)
          rw [hm]
          exact ha
        obtain ⟨ok, htk, hyes, hno⟩ := ih hs₁ h
        exact ⟨ok, ht.trans htk, fun hok => ⟨(hyes hok).1, (hyes hok).2.cons e⟩, hno⟩
      · simp only [hst] at h ⊢
        cases h
        have hn : bytes (Event.texts []) = [] := rfl
        rw [hn, List.append_nil]
        refine ⟨true, ht, fun _ => ⟨hp, ?_⟩, ?_⟩
        · obtain he | rfl := he
          · exact settled_of_turn (Machine.execute_final hs hx).1 he
          · exact .unreadable
        · intro hok
          cases hok

/-- What has come out when a session stops with `exit` whose run has come to the events `es` and
    whose sink has `room`: all that was printed, unless it is too much for the sink, and then the
    session says so and nothing else. -/
structure Delivers (room : Option Nat) (es : List Event) (received : List UInt8) (exit : Exit) :
    Prop where
  all : exit ≠ .failed unwritable → received = bytes (Event.texts es)
  part : received <+: bytes (Event.texts es)
  refused : exit = .failed unwritable ↔ ∃ k, room = some k ∧ k < (bytes (Event.texts es)).length
  finished : exit = .finished → .ended ∈ es
  failed : ∀ f, exit = .failed f → f.cause ≠ .internalError → .failed f ∈ es

/-- **Nothing that a run prints is lost, and no failure to write is hidden.** -/
theorem run_delivers {signal : Signal} {fuel turns : Nat} {s s' : Session} {stdin : List UInt8}
    {exit : Exit} {buffering : Buffering} {room : Option Nat}
    (hs : s.machine.status ≠ .idle) {capacity : Nat} (hm : s.machine.Sound capacity)
    (ho : s.output = .empty buffering room)
    (h : run signal fuel turns s stdin = some (s', exit)) :
    Delivers room (s.events signal fuel turns stdin) s'.output.sink.received.toList exit := by
  obtain ⟨ok, ht, hyes, hno⟩ := run_takes hs h
  have hw : s.output.written = [] := by rw [ho]; rfl
  have hlim : s'.output.sink.limit = room := by
    rw [ht.limit, ho]
    cases room <;> rfl
  have hf : ∀ f, .failed f ∈ s.events signal fuel turns stdin → f.cause ≠ .internalError := by
    intro f he
    exact hm.attended_fault ((events_isPrefix signal fuel 0 turns s stdin).subset he)
  cases ok with
  | true =>
    obtain ⟨hp, hset⟩ := hyes rfl
    have hall : s'.output.sink.received.toList =
        bytes (Event.texts (s.events signal fuel turns stdin)) := by
      have hw' := ht.written rfl
      rwa [hw, Output.written, hp, List.nil_append, List.append_nil] at hw'
    refine ⟨fun _ => hall, by simp only [hall, List.prefix_rfl], ?_, ?_, ?_⟩
    · refine iff_of_false (hset.ne_unwritable hf) ?_
      rintro ⟨k, hr, hlt⟩
      rw [hr] at hlim
      obtain ⟨left, -, hk⟩ := Option.map_eq_some_iff.1 hlim
      rw [← hall, Array.length_toList] at hlt
      omega
    · rintro rfl
      cases hset with
      | finished he => exact he
    · rintro f rfl hc
      cases hset with
      | failed he => exact he
      | unreadable => exact absurd rfl hc
  | false =>
    obtain rfl := hno rfl
    obtain ⟨hr, hpre, hlt⟩ := ht.refused rfl
    rw [hw, List.nil_append] at hpre hlt
    rw [Sink.limit, hr, Option.map_some, Nat.zero_add] at hlim
    refine ⟨fun hne => absurd rfl hne, hpre, iff_of_true rfl ⟨_, hlim.symm, hlt⟩, ?_, ?_⟩
    · intro he
      cases he
    · rintro f he hc
      cases he
      exact absurd rfl hc

end Session

/-! ## The command -/

/-- Whatever keeps the command from beginning a run, it leaves the files alone. -/
theorem Options.run_untouched {o : Options} {w : Surroundings}
    (h : (∃ f, load w.tree o.file = .error f) ∨ o.list = true ∨ o.memory < 1) (style : Style)
    (signal : Signal) (fuel : Nat) :
    ∃ report, o.run style signal fuel w = some report ∧ report.tree = w.tree := by
  unfold Options.run
  rcases hf : load w.tree o.file with f | source
  · rw [Options.prepare_of_load_error hf]
    exact ⟨_, rfl, rfl⟩
  · rcases hl : o.list with _ | _
    · obtain ⟨f, hm⟩ : ∃ f, o.machine = .error f := by
        have hm : o.memory.toNat = 0 := by
          rcases h with ⟨f, he⟩ | h | h
          · rw [hf] at he; cases he
          · rw [hl] at h; cases h
          · omega
        rw [Options.machine, hm]
        exact ⟨_, rfl⟩
      rw [Options.prepare_of_machine_error hf hl hm]
      exact ⟨_, rfl, rfl⟩
    · rw [Options.prepare_list hf hl]
      exact ⟨_, rfl, rfl⟩

/-- Of a longer run more comes out. -/
theorem Session.bytes_isPrefix {es es' : List Event} (h : es <+: es') :
    bytes (Event.texts es) <+: bytes (Event.texts es') := by
  obtain ⟨rest, rfl⟩ := h
  have ht : Event.texts (es ++ rest) = Event.texts es ++ Event.texts rest := List.filterMap_append
  exact ⟨bytes (Event.texts rest), by rw [ht, bytes_append]⟩

/-- **The command loses no output and reports none falsely.**  Without a source text, a positive
    number of cells and a run to be made, it leaves the files alone.  With them it is a session,
    on whatever output.  When that stops, at any interrupt or none, all that the run has printed
    has been received, in order, unless the sink has refused some of it; then, and only then, the
    session fails as the surroundings do.  If it has been interrupted, what the run has printed is
    how the output of the run that is not interrupted begins. -/
theorem Options.run_lossless (o : Options) (w : Surroundings) :
    ((∃ f, load w.tree o.file = .error f) ∨ o.list = true ∨ o.memory < 1 → ∀ style signal fuel,
      ∃ report, o.run style signal fuel w = some report ∧ report.tree = w.tree) ∧
    ∀ source m, load w.tree o.file = .ok source → o.list = false → o.machine = .ok m →
      ∀ buffering room, ∃ s, Session.begin o source m (.empty buffering room) = .ok s ∧
        (∀ channel tree, openChannel w.tree o.output = .ok (channel, tree) →
          channel.output tree = .empty buffering room → ∀ style signal fuel,
          o.run style signal fuel w =
            (s.run signal fuel 0 w.stdin).map fun r => .ofSession style tree channel r.1 r.2) ∧
        ∀ signal fuel s' exit, s.run signal fuel 0 w.stdin = some (s', exit) →
          Session.Delivers room (s.events signal fuel 0 w.stdin)
            s'.output.sink.received.toList exit ∧
          ∀ n, fuel ≤ n → Session.bytes (Event.texts (s.events signal fuel 0 w.stdin)) <+:
            Session.bytes (Event.texts (Session.events Session.never n 0
              { s with output := .empty buffering none } w.stdin)) := by
  refine ⟨Options.run_untouched, ?_⟩
  intro source m hf hl hm buffering room
  have hfresh : Machine.Fresh o.memory.toNat m := .blank hm
  have hsound : Machine.Sound o.memory.toNat (m.begun source) :=
    ⟨hfresh.sound.capacity_eq, Program.wellFormed_ofSource source⟩
  obtain ⟨s, hbegin, hsm, hso, -, -⟩ :=
    Session.exists_begin o source hfresh.idle (.empty buffering room)
  rw [← hsm] at hsound
  have hactive : s.machine.status ≠ .idle := by
    rw [hsm]
    simp [Machine.begun]
  refine ⟨s, hbegin, ?_, ?_⟩
  · intro channel tree ho hout
    rw [← hout] at hbegin
    exact Options.run_eq hl hf hm ho hbegin
  · intro signal fuel s' exit h
    refine ⟨Session.run_delivers hactive hsound hso h, ?_⟩
    intro n hn
    obtain ⟨more, rfl⟩ := Nat.exists_eq_add_of_le hn
    rw [Session.events_never _ _ rfl]
    exact Session.bytes_isPrefix (Session.events_isPrefix signal fuel more 0 _ _)

/-- The program prints two digits on a device that takes one byte.  They are held in the buffer, and
    the device refuses the second of them when the run has come to its end. -/
theorem Options.run_lossless_full_device : ∃ (o : Options) (w : Surroundings) (report : Report),
    w.tree.find? ["d"] = some (.device (some 1)) ∧ o.output = some "d" ∧
      o.run .plain Session.never 3 w = some report ∧ report.status = 1 ∧
      report.stderr = "\x1b[1m?INTERNAL ERROR; No space left on device (os error 28)\x1b[0m\n" := by
  let o : Options := ⟨"a", 1, some "d", false, 0⟩
  let w : Surroundings := ⟨⟨[(["a"], .file (Text.Utf8.encode "MoO OOM OOM".toList)),
    (["d"], .device (some 1))], []⟩, []⟩
  let s : Session := ⟨(Machine.ofTape (.zeros 0)).begun "MoO OOM OOM", .empty .block (some 1), 0,
    #[Record.ofEntry (.started 4 1), announcement "a" 1]⟩
  have hf : load w.tree "a" = .ok "MoO OOM OOM" := load_text rfl
  have hc : openChannel w.tree o.output = .ok (.place ["d"], w.tree) := rfl
  obtain ⟨s₀, hs, hrun, hd⟩ :=
    (Options.run_lossless o w).2 _ (.ofTape (.zeros 0)) hf rfl rfl .block (some 1)
  cases (show Session.begin o _ _ _ = .ok s from rfl).symm.trans hs
  obtain ⟨⟨s', exit⟩, h, hlog⟩ : ∃ r, s.run Session.never 3 0 [] = some r ∧ r.1.shown .plain = "" :=
    Option.map_eq_some_iff.1 (by decide)
  obtain rfl : exit = .failed unwritable :=
    (hd Session.never 3 s' exit h).1.refused.2 ⟨1, rfl, by decide⟩
  have hreport := hrun _ _ hc rfl .plain Session.never 3
  rw [h] at hreport
  refine ⟨o, w, _, rfl, rfl, hreport, rfl, ?_⟩
  show s'.shown .plain ++ (Exit.failed unwritable).notice .plain = _
  rw [show s'.shown .plain = "" from hlog]
  decide

end Console

end MooCode
