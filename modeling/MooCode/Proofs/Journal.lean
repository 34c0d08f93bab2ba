/-
  Moo-code — what the log shows of a run.

  * `Machine.Chronicles es e`: the entries `es` are instructions about to take effect, and at the
    end what the event `e` is worth.  `chronicles_journal`: the journal of a slice is of this form.
  * `Machine.journal_add`: how a run is cut into slices does not show in its journal.
  * `Console.Style.written_journal`: what a session logs of a turn shows all that the journal of the
    slice shows, and `written_journal_of_hidden`: where no details are shown, that is whether the
    run has been given up.
-/
import MooCode.Console.Session
import MooCode.Proofs.Straight

namespace MooCode

/-- Whether the entry is an instruction about to take effect. -/
def Entry.isDispatch : Entry → Bool
  | dispatched _ _ _ => true
  | _ => false

namespace Machine

/-! ## Journals -/

/-- The entries `es` tell of a slice that comes to the event `e`: they are instructions about to
    take effect, and at the end what the event is worth.  The end of a run names the line of the
    `halt` right before it. -/
def Chronicles (es : List Entry) (e : Event) : Prop :=
  ∃ ds line, (∀ d ∈ ds, d.isDispatch = true) ∧ es = ds ++ closing line e ∧
    (e = .ended → ∃ pointer, ds.getLast? = some (.dispatched line .halt pointer))

/-- The last entry of a cycle is the instruction that it performs. -/
theorem dispatches_eq (m : Machine) : ∃ ds, (∀ d ∈ ds, d.isDispatch = true) ∧
    m.dispatches = ds ++ [.dispatched m.program.cursor m.upcoming m.tape.pointer] := by
  by_cases h : m.program.peek = .exec ∧ m.upcoming ≠ .exec
  · exact ⟨[.dispatched m.program.cursor m.program.peek m.tape.pointer], by simp [Entry.isDispatch],
      if_pos h⟩
  · have hu : m.upcoming = m.program.peek := by
      by_cases hp : m.program.peek = .exec
      · rw [hp]
        exact not_not.1 (not_and.1 h hp)
      · exact if_neg hp
    exact ⟨[], by simp, by rw [hu]; exact if_neg h⟩

theorem isDispatch_of_mem_dispatches {m : Machine} {d : Entry} (h : d ∈ m.dispatches) :
    d.isDispatch = true := by
  obtain ⟨ds, hd, he⟩ := m.dispatches_eq
  rw [he] at h
  rcases List.mem_append.1 h with h | h
  · exact hd d h
  · rw [List.mem_singleton.1 h]; rfl

theorem Chronicles.dispatches {es : List Entry} {e : Event} (h : Chronicles es e) (m : Machine) :
    Chronicles (m.dispatches ++ es) e := by
  obtain ⟨ds, line, hd, rfl, he⟩ := h
  refine ⟨m.dispatches ++ ds, line, ?_, (List.append_assoc ..).symm, ?_⟩
  · intro d hm
    exact (List.mem_append.1 hm).elim isDispatch_of_mem_dispatches (hd d)
  · intro hend
    obtain ⟨pointer, hp⟩ := he hend
    exact ⟨pointer, by rw [List.getLast?_append, hp]; rfl⟩

theorem upcoming_of_ended {m m' : Machine} (h : m.cycle = (m', some .ended)) :
    m.upcoming = .halt := by
  by_contra hne
  have hp : m.performed.2 ≠ .halt := perform_ne_halt hne m.fetched m.program.cursor
  rw [cycle_eq] at h
  rcases he : m.performed.2 with _ | text | r | _ | f
  case halt => exact hp he
  all_goals rw [he] at h; cases h

theorem chronicles_cycle {m m' : Machine} {e : Event} (h : m.cycle = (m', some e)) :
    Chronicles (m.dispatches ++ closing m.program.cursor e) e := by
  refine ⟨m.dispatches, m.program.cursor, fun _ => isDispatch_of_mem_dispatches, rfl, ?_⟩
  rintro rfl
  obtain ⟨ds, -, he⟩ := m.dispatches_eq
  exact ⟨m.tape.pointer, by rw [he, List.getLast?_concat, upcoming_of_ended h]⟩

theorem chronicles_advance (n : Nat) (m : Machine) :
    Chronicles (advanceJournal n m) (advance n m).2 := by
  induction n generalizing m with
  | zero => exact ⟨[], 0, by simp, rfl, by simp [advance]⟩
  | succ n ih =>
    obtain ⟨⟨m', _ | e⟩, hc⟩ : ∃ after, m.cycle = after := ⟨_, rfl⟩
    · simp only [advanceJournal, advance, hc]
      exact (ih m').dispatches m
    · simp only [advanceJournal, advance, hc]
      exact chronicles_cycle hc

/-- **What the journal of a slice is**: the instructions that it comes to, in order, and at the end
    what its event is worth. -/
theorem chronicles_journal (m : Machine) (n : Nat) : Chronicles (m.journal n) (m.execute n).2 := by
  rcases hs : m.status with _ | _ | ⟨r, line⟩
  · simp only [journal, execute, hs]
    exact ⟨[], 0, by simp, rfl, by simp⟩
  · simp only [journal, execute, hs]
    exact chronicles_advance n m
  · rcases hr : m.read r with ⟨m', _ | _ | f⟩
    · simp only [journal, execute, hs, hr]
      exact chronicles_advance n _
    · simp only [journal, execute, hs, hr]
      exact ⟨[], 0, by simp, rfl, by simp⟩
    · simp only [journal, execute, hs, hr]
      exact ⟨[], line, by simp, rfl, by simp [abort]⟩

theorem advanceJournal_add (n k : Nat) (m : Machine) : advanceJournal (n + k) m =
    advanceJournal n m ++
      if (advance n m).2 = .running then advanceJournal k (advance n m).1 else [] := by
  induction n generalizing m with
  | zero => rw [Nat.zero_add]; rfl
  | succ n ih =>
    rw [Nat.add_right_comm]
    obtain ⟨⟨m₁, _ | e⟩, hc⟩ : ∃ after, m.cycle = after := ⟨_, rfl⟩
    · simp only [advanceJournal, advance, hc, List.append_assoc]
      rw [ih m₁]
    · simp only [advanceJournal, advance, hc, if_neg (cycle_ne_running hc), List.append_nil]

/-- **How a run is cut into slices does not show in its journal.** -/
theorem journal_add (m : Machine) (n k : Nat) : m.journal (n + k) =
    m.journal n ++ if (m.execute n).2 = .running then (m.execute n).1.journal k else [] := by
  -- a run that goes on for `n` cycles from `m₀` is still running after them
  have key : ∀ m₀ : Machine, m₀.status = .running → advanceJournal (n + k) m₀ =
      advanceJournal n m₀ ++
        if (advance n m₀).2 = .running then (advance n m₀).1.journal k else [] := by
    intro m₀ hs
    rw [advanceJournal_add]
    rcases ha : advance n m₀ with ⟨m', e⟩
    by_cases he : e = .running
    · subst he
      rw [if_pos rfl, if_pos rfl, journal, (advance_keeps ha).status.trans hs]
    · rw [if_neg he, if_neg he]
  rcases hs : m.status with _ | _ | ⟨r, line⟩
  · simp [journal, execute, hs]
  · simp only [journal, execute, hs]
    exact key m hs
  · rcases hr : m.read r with ⟨m', _ | _ | f⟩
    · simp only [journal, execute, hs, hr]
      exact key _ rfl
    · simp [journal, execute, hs, hr]
    · simp [journal, execute, hs, hr, abort]

end Machine

namespace Console

/-! ## The log -/

theorem Level.shownAt_eq_false_iff {l : Level} {verbosity : Nat} :
    l.shownAt verbosity = false ↔ (least verbosity).rank < l.rank := by
  simp [shownAt]

namespace Style
variable (style : Style) {verbosity : Nat}

theorem written_append (verbosity : Nat) (rs rs' : List Record) :
    style.written verbosity (rs ++ rs') =
      style.written verbosity rs ++ style.written verbosity rs' := by
  simp [written]

theorem written_of_hidden {rs : List Record} (h : ∀ r ∈ rs, r.level.shownAt verbosity = false) :
    style.written verbosity rs = "" := by
  induction rs with
  | nil => rfl
  | cons r rs ih =>
    obtain ⟨hr, hrs⟩ := List.forall_mem_cons.1 h
    have hw : style.record (.least verbosity) r = "" :=
      style.hidden _ r (Level.shownAt_eq_false_iff.1 hr)
    rw [← List.singleton_append, written_append, ih hrs]
    simp [written, hw]

/-- **Where no details are shown**, all that shows of a slice is whether the run has been given
    up. -/
theorem written_journal_of_hidden (hv : Level.debug.shownAt verbosity = false) (m : Machine)
    (n : Nat) : style.written verbosity ((m.journal n).map Record.ofEntry) =
      style.written verbosity ((Session.givenUp (m.execute n).2).map Record.ofEntry) := by
  obtain ⟨ds, line, hd, he, -⟩ := m.chronicles_journal n
  have htrace : Level.trace.shownAt verbosity = false := by
    rw [Level.shownAt_eq_false_iff] at hv ⊢
    exact hv.trans (by decide)
  have hds : style.written verbosity (ds.map Record.ofEntry) = "" := by
    refine style.written_of_hidden ?_
    intro r hr
    obtain ⟨d, hm, rfl⟩ := List.mem_map.1 hr
    cases d with
    | dispatched => exact htrace
    | _ => cases hd _ hm
  rw [he, List.map_append, written_append, hds, String.empty_append]
  cases (m.execute n).2 with
  | ended => exact style.written_of_hidden (by simpa [Machine.closing, Record.ofEntry] using hv)
  | _ => rfl

/-- **What a session logs of a turn shows all that the journal of the slice shows.** -/
theorem written_journal (verbosity : Nat) (m : Machine) : style.written verbosity
    ((Session.journal verbosity m (m.execute turnCycles).2).map Record.ofEntry) =
      style.written verbosity ((m.journal turnCycles).map Record.ofEntry) := by
  unfold Session.journal
  split
  · rfl
  · next hv => exact (style.written_journal_of_hidden (by simpa using hv) m turnCycles).symm

end Style

end Console

end MooCode
