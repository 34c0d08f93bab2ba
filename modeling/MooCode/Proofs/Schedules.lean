/-
  Moo-code — when input is entered.

  * `Schedule source lines cs`: the calls `cs` begin one run of `source`, go on with it in
    slices, enter the lines `lines` in order, not necessarily all, and close the input
    only after all of them.
  * `Serves.finishes`: such calls bring the run to where it leads when all the lines have
    been entered from the beginning.  After its end, calls change nothing but the input
    (`Serves.idle`).
  * `upFront source lines budgets`: the schedule that enters everything before the run, and
    `Machine.Finishes.mem_upFront`: with enough slices it brings the run to where it leads.
  * `Machine.schedules_agree`: when the lines are entered does not show.
-/
import MooCode.Proofs.Eager

namespace MooCode

/-- The events among the answers of a machine. -/
def Reply.events (rs : List Reply) : List Event :=
  rs.filterMap fun
    | .event e => some e
    | _ => none

theorem Reply.events_event (e : Event) (rs : List Reply) :
    events (.event e :: rs) = e :: events rs :=
  rfl

/-- The calls `cs` go on with a run: slices of any size, the lines `lines` in order, and
    the end of the input only after all of them. -/
inductive Serves : (lines : List String) → (cs : List Call) → Prop
  | nil (lines : List String) : Serves lines []
  | execute {lines : List String} {cs : List Call} (cycles : Nat) :
      Serves lines cs → Serves lines (.execute cycles :: cs)
  | enter {lines : List String} {cs : List Call} (l : String) :
      Serves lines cs → Serves (l :: lines) (.enter l :: cs)
  | closeInput {cs : List Call} : Serves [] cs → Serves [] (.closeInput :: cs)

/-- The same with one call among them that begins a run of `source`. -/
inductive Schedule (source : String) : (lines : List String) → (cs : List Call) → Prop
  | start {lines : List String} {cs : List Call} :
      Serves lines cs → Schedule source lines (.start source :: cs)
  | execute {lines : List String} {cs : List Call} (cycles : Nat) :
      Schedule source lines cs → Schedule source lines (.execute cycles :: cs)
  | enter {lines : List String} {cs : List Call} (l : String) :
      Schedule source lines cs → Schedule source (l :: lines) (.enter l :: cs)
  | closeInput {cs : List Call} :
      Schedule source [] cs → Schedule source [] (.closeInput :: cs)

namespace Machine

/-- The machines have the same tape, register and program, cursors included. -/
structure Alike (m m' : Machine) : Prop where
  tape : m.tape = m'.tape
  register : m.register = m'.register
  program : m.program = m'.program

theorem Alike.symm {m m' : Machine} (h : Alike m m') : Alike m' m :=
  ⟨h.tape.symm, h.register.symm, h.program.symm⟩

theorem Alike.trans {m₁ m₂ m₃ : Machine} (h : Alike m₁ m₂) (h' : Alike m₂ m₃) : Alike m₁ m₃ :=
  ⟨h.tape.trans h'.tape, h.register.trans h'.register, h.program.trans h'.program⟩

theorem alike_eager (m : Machine) (lines : List String) : Alike (m.eager lines) m := by
  rw [eager_eq]; exact ⟨rfl, rfl, rfl⟩

end Machine

namespace Serves
open Machine

/-- Calls after the end of a run find no run, and leave the machine alone but for its
    input. -/
theorem idle {lines : List String} {cs : List Call} (hc : Serves lines cs) {m : Machine}
    (hs : m.status = .idle) : (∀ e ∈ Reply.events (m.calls cs).2, e = .stopped) ∧
      Event.texts (Reply.events (m.calls cs).2) = [] ∧ Alike m (m.calls cs).1 := by
  induction hc generalizing m with
  | nil => exact ⟨by simp [calls, Reply.events], rfl, rfl, rfl, rfl⟩
  | execute n _ ih =>
    have hx : m.call (.execute n) = (m, .event .stopped) := by
      simp only [Machine.call, Machine.execute, hs]
    simp only [calls, hx]
    obtain ⟨he, ht, ha⟩ := ih hs
    refine ⟨?_, ht, ha⟩
    intro e hm
    rcases List.mem_cons.1 hm with rfl | hm
    · rfl
    · exact he e hm
  | enter l _ ih =>
    obtain ⟨he, ht, ha⟩ := ih (m := m.enter l) hs
    exact ⟨he, ht, ha.tape, ha.register, ha.program⟩
  | closeInput _ ih =>
    obtain ⟨he, ht, ha⟩ := ih (m := m.closeInput) hs
    exact ⟨he, ht, ha.tape, ha.register, ha.program⟩

/-- **Calls bring a run to where it leads when all its input has been there from the
    beginning.** -/
theorem finishes {lines : List String} {cs : List Call} (hc : Serves lines cs) {m : Machine}
    (hs : m.status ≠ .idle) (hl : m.Expects lines) {e : Event}
    (he : e ∈ Reply.events (m.calls cs).2) (hf : e.isFinal = true) :
    ∃ m', Finishes (m.eager lines) ⟨Event.texts (Reply.events (m.calls cs).2), e, m'⟩ ∧
      Alike m' (m.calls cs).1 := by
  induction hc generalizing m with
  | nil => cases he
  | @execute lines cs n hc ih =>
    rcases hx : m.execute n with ⟨m₁, e₁⟩
    have hcall : m.call (.execute n) = (m₁, .event e₁) := by simp only [Machine.call, hx]
    simp only [calls, hcall] at he ⊢
    cases hf₁ : e₁.isFinal with
    | false =>
      -- the run is on, and the final event is still to come
      have he₁ : e ∈ Reply.events (m₁.calls cs).2 := by
        rcases List.mem_cons.1 he with rfl | he
        · rw [hf₁] at hf
          cases hf
        · exact he
      obtain ⟨m', ho, ha⟩ := ih (execute_active hs hx hf₁) (hl.execute hx) he₁
      refine ⟨m', (finishes_eager hs hl hx hf₁).2 ⟨_, ho, ?_⟩, ha⟩
      rw [Reply.events_event, Event.texts_cons]
    | true =>
      -- nothing more comes of the run
      obtain ⟨hes, ht, ha⟩ := hc.idle ((execute_final hs hx).2.2 hf₁)
      obtain rfl : e = e₁ := by
        rcases List.mem_cons.1 he with he | he
        · exact he
        · rw [hes e he] at hf
          cases hf
      refine ⟨_, (finishes_eager_of_final hl hx hf₁).2 ?_, (alike_eager m₁ lines).trans ha⟩
      rw [Reply.events_event, Event.texts_cons, Event.texts_of_isFinal hf₁, ht, List.append_nil]
  | enter l _ ih =>
    refine ih (m := m.enter l) hs (fun h => ?_) he
    exact absurd (hl h) (List.cons_ne_nil _ _)
  | closeInput _ ih => exact ih (m := m.closeInput) hs (fun _ => rfl) he

end Serves

namespace Machine

/-- A run of `source` begun, whatever the machine was doing. -/
def begun (m : Machine) (source : String) : Machine :=
  { m with program := Program.ofSource source, status := .running }

theorem start_of_idle {m : Machine} (hs : m.status = .idle) (source : String) :
    m.start source = .ok (m.begun source) := by
  simp only [start, isActive, hs]; rfl

end Machine

/-- A schedule brings its run to where it leads when all the input has been there from the
    beginning. -/
theorem Schedule.finishes {source : String} {lines : List String} {cs : List Call}
    (hc : Schedule source lines cs) {m : Machine} (hs : m.status = .idle) (hl : m.Expects lines)
    {e : Event} (he : e ∈ Reply.events (m.calls cs).2) (hf : e.isFinal = true) :
    ∃ m', ((m.begun source).eager lines).Finishes
        ⟨Event.texts (Reply.events (m.calls cs).2), e, m'⟩ ∧ m'.Alike (m.calls cs).1 := by
  induction hc generalizing m with
  | start hc =>
    have hcall : m.call (.start source) = (m.begun source, .done) := by
      simp only [Machine.call, Machine.start_of_idle hs]; rfl
    simp only [Machine.calls, hcall] at he ⊢
    exact hc.finishes (m := m.begun source) (by simp [Machine.begun]) hl he hf
  | execute n _ ih =>
    have hcall : m.call (.execute n) = (m, .event .stopped) := by
      simp only [Machine.call, Machine.execute, hs]
    simp only [Machine.calls, hcall] at he ⊢
    refine ih hs hl ?_
    rcases List.mem_cons.1 he with rfl | he
    · cases hf
    · exact he
  | enter l _ ih =>
    refine ih (m := m.enter l) hs (fun h => ?_) he
    exact absurd (hl h) (List.cons_ne_nil _ _)
  | closeInput _ ih => exact ih (m := m.closeInput) hs (fun _ => rfl) he

/-- The schedule that enters all the lines and closes the input before it begins the run. -/
def upFront (source : String) (lines : List String) (budgets : List Nat) : List Call :=
  lines.map .enter ++ .closeInput :: .start source :: budgets.map .execute

theorem schedule_upFront (source : String) (lines : List String) (budgets : List Nat) :
    Schedule source lines (upFront source lines budgets) := by
  induction lines with
  | nil =>
    refine .closeInput (.start ?_)
    induction budgets with
    | nil => exact .nil []
    | cons b bs ih => exact .execute b ih
  | cons l lines ih => exact .enter l ih

namespace Machine

theorem events_upFront {m : Machine} (hs : m.status = .idle) (source : String)
    (lines : List String) (budgets : List Nat) :
    Reply.events (m.calls (upFront source lines budgets)).2 =
      Reply.events (((m.begun source).eager lines).calls (budgets.map .execute)).2 := by
  induction lines generalizing m with
  | nil =>
    show Reply.events (m.closeInput.calls (.start source :: _)).2 = _
    simp only [calls, call, start_of_idle (m := m.closeInput) hs]
    rfl
  | cons l lines ih => exact ih (m := m.enter l) hs

theorem mem_events_of_mem_drive {m : Machine} {bs : List Nat} {e : Event}
    (he : e ∈ (m.drive bs).2) : e ∈ Reply.events (m.calls (bs.map .execute)).2 := by
  induction bs generalizing m with
  | nil => cases he
  | cons b bs ih =>
    rcases hb : m.execute b with ⟨m₁, e₁⟩
    simp only [List.map_cons, calls, call, hb, Reply.events_event, List.mem_cons]
    cases hp : e₁.isPassing with
    | true =>
      rw [drive_of_pass hb hp] at he
      exact (List.mem_cons.1 he).imp_right ih
    | false =>
      rw [drive_of_stop hb hp] at he
      exact Or.inl (List.mem_singleton.1 he)

/-- A run that leads somewhere is brought there by enough slices, with all the input entered
    before it. -/
theorem Finishes.mem_upFront {m : Machine} (hs : m.status = .idle) {source : String}
    {lines : List String} {o : Outcome} (h : ((m.begun source).eager lines).Finishes o) :
    ∃ budgets, o.event ∈ Reply.events (m.calls (upFront source lines budgets)).2 := by
  obtain ⟨n, hn⟩ := h
  obtain ⟨-, es, -, hd⟩ := drive_of_finish hn
  refine ⟨List.replicate n 1, ?_⟩
  rw [events_upFront hs]
  exact mem_events_of_mem_drive (by simp [hd])

/-- **When input is entered does not show.**  Two schedules that serve the same lines to a
    run of the same source, begun by an idle machine that more input comes to: if
    both bring the run to its end, they print the same, come to the same final event and
    leave the same tape, register and program. -/
theorem schedules_agree {m : Machine} (hs : m.status = .idle) (ho : m.closed = false)
    {source : String} {lines : List String} {cs₁ cs₂ : List Call}
    (hc₁ : Schedule source lines cs₁) (hc₂ : Schedule source lines cs₂) {e₁ e₂ : Event}
    (he₁ : e₁ ∈ Reply.events (m.calls cs₁).2) (hf₁ : e₁.isFinal = true)
    (he₂ : e₂ ∈ Reply.events (m.calls cs₂).2) (hf₂ : e₂.isFinal = true) :
    Event.texts (Reply.events (m.calls cs₁).2) = Event.texts (Reply.events (m.calls cs₂).2) ∧
      e₁ = e₂ ∧ Alike (m.calls cs₁).1 (m.calls cs₂).1 := by
  have hl := expects_of_open ho lines
  obtain ⟨m₁, h₁, ha₁⟩ := hc₁.finishes hs hl he₁ hf₁
  obtain ⟨m₂, h₂, ha₂⟩ := hc₂.finishes hs hl he₂ hf₂
  have h := h₁.unique h₂
  injection h with ht he hm
  rw [hm] at ha₁
  exact ⟨ht, he, ha₁.symm.trans ha₂⟩

/-- Three lines, the second of them no integer: entered before the run, and one by one as
    the run asks for them, the last one when it is over. -/
theorem schedules_agree_illegal_line : ∃ (m : Machine) (turns : List Call),
    m.status = .idle ∧ m.closed = false ∧ m.tape.cells = [5, 0, 7] ∧ m.register = 3 ∧
    Schedule "oom OOM oom" ["41", "x", "9"] turns ∧
    .failed ⟨.illegalInput, some 2, "x"⟩ ∈ Reply.events (m.calls turns).2 ∧
    Event.texts (Reply.events (m.calls turns).2) = ["41"] ∧
    Event.texts (Reply.events
      (m.calls (upFront "oom OOM oom" ["41", "x", "9"] [1, 8, 9])).2) = ["41"] ∧
    Alike (m.calls (upFront "oom OOM oom" ["41", "x", "9"] [1, 8, 9])).1 (m.calls turns).1 := by
  refine ⟨⟨⟨[5], 0, [7]⟩, 3, default, .idle, [], false⟩, [.execute 4, .start "oom OOM oom",
    .execute 9, .enter "41", .execute 0, .execute 1, .execute 9, .enter "x", .execute 1,
    .enter "9", .execute 1], rfl, rfl, rfl, rfl, ?_⟩
  have hc : Schedule "oom OOM oom" ["41", "x", "9"] [.execute 4, .start "oom OOM oom",
      .execute 9, .enter "41", .execute 0, .execute 1, .execute 9, .enter "x", .execute 1,
      .enter "9", .execute 1] :=
    .execute 4 (.start (.execute 9 (.enter _ (.execute 0 (.execute 1 (.execute 9 (.enter _
      (.execute 1 (.enter _ (.execute 1 (.nil [])))))))))))
  obtain ⟨ht, -, ha⟩ := schedules_agree (m := ⟨⟨[5], 0, [7]⟩, 3, default, .idle, [], false⟩) rfl rfl
    (schedule_upFront "oom OOM oom" ["41", "x", "9"] [1, 8, 9]) hc
    (show .failed ⟨.illegalInput, some 2, "x"⟩ ∈ _ by decide) rfl
    (show .failed ⟨.illegalInput, some 2, "x"⟩ ∈ _ by decide) rfl
  exact ⟨hc, by decide, by decide, ht.trans (by decide), ha⟩

end Machine

end MooCode
