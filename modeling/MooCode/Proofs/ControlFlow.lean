/-
  Moo-code — where runs go.

  * `Machine.GoesTo m line`: where the next instruction of the run of `m` can take the cursor: to the
    next line, back to a marker or forward behind a return.  `execute_goesTo`: it takes it nowhere
    else, unless the run is over with it.
  * `Machine.Climbs n m m'`: `n` instructions in a row take `m` to `m'`, and each of them takes the
    cursor forward.  `Climbs.lt`: there are fewer of them than lines from the cursor on.
  * `Machine.Turns m`: with its next instruction the run of `m` is over, waits or goes back.
    `exists_climb`: every run climbs until it turns.
  * `Machine.control_flow`: so a run that never goes back is over in so many instructions as there
    are lines, unless it waits.
-/
import MooCode.Proofs.Inline
import MooCode.Proofs.Schedules

namespace MooCode

theorem Event.cases_of_ne_stopped {e : Event} (he : e ≠ .stopped) :
    e.isFinal = true ∨ (∃ r, e = .input r) ∨ (e.isPassing = true ∧ e.isFinal = false) := by
  cases e with
  | stopped => exact absurd rfl he
  | input r => exact Or.inr (Or.inl ⟨r, rfl⟩)
  | running | print => exact Or.inr (Or.inr ⟨rfl, rfl⟩)
  | ended | failed => exact Or.inl rfl

namespace Machine

/-! ## One instruction -/

/-- Where the next instruction of the run of `m` can take the cursor: to the next line; back to
    a marker that does not directly follow another, by a return or by an execute instruction that
    stands for one; or forward behind a return, by a marker on a zero cell. -/
inductive GoesTo (m : Machine) : (line : Nat) → Prop
  | next : GoesTo m (m.program.cursor + 1)
  | back {mark : Nat} : mark < m.program.cursor → m.program.instruction? mark = some .mark →
      (mark = 0 ∨ m.program.instruction? (mark - 1) ≠ some .mark) →
      (m.program.instruction? m.program.cursor = some .jumpBack ∨
        m.program.instruction? m.program.cursor = some .exec ∧ m.tape.here = 0) →
      GoesTo m mark
  | forth {resume : Nat} : m.program.cursor + 3 ≤ resume →
      (∃ e, m.program.instruction? e = some .halt ∧ resume ≤ e) →
      m.program.instruction? (resume - 1) = some .jumpBack →
      m.program.instruction? m.program.cursor = some .mark → m.tape.here = 0 →
      GoesTo m resume

/-- Only returns and execute instructions go back. -/
theorem GoesTo.forth_or_back {m : Machine} {line : Nat} (h : m.GoesTo line) :
    m.program.cursor < line ∨ line < m.program.cursor ∧
      (m.program.instruction? m.program.cursor = some .jumpBack ∨
        m.program.instruction? m.program.cursor = some .exec) := by
  cases h with
  | next => exact Or.inl (Nat.lt_succ_self _)
  | back hlt _ _ hat => exact Or.inr ⟨hlt, hat.imp_right And.left⟩
  | forth hfar _ _ _ _ => exact Or.inl (by omega)

section
variable {m : Machine} (hp : m.program.WellFormed)
include hp

theorem goesTo_of_jumpBack (hj : m.upcoming = .jumpBack) (hn : ∀ f, m.performed.2 ≠ .fail f) :
    m.GoesTo m.performed.1.program.cursor := by
  have hi := hp.instruction?_cursor
  have hat : m.program.instruction? m.program.cursor = some .jumpBack ∨
      m.program.instruction? m.program.cursor = some .exec ∧ m.tape.here = 0 := by
    rw [hi]
    rcases (Instruction.resolve_eq_iff rfl).1 hj with ⟨-, h⟩ | ⟨h, h0⟩
    · exact Or.inl (congrArg some h)
    · exact Or.inr ⟨congrArg some h, h0⟩
  rw [performed, hj, perform] at hn ⊢
  rcases hs : m.fetched.program.loopStart m.program.cursor with _ | mark
  · rw [hs] at hn
    exact absurd rfl (hn _)
  · obtain ⟨hle, ho, -⟩ := Program.loopStart_eq_some_iff.1 hs
    obtain ⟨hm, hb⟩ := Program.opensLoop_iff.1 ho
    have hm : m.program.instruction? mark = some .mark :=
      (m.program.instruction?_advance mark).symm.trans hm
    have hb : mark = 0 ∨ m.program.instruction? (mark - 1) ≠ some .mark := by
      rwa [← m.program.instruction?_advance (mark - 1)]
    -- the line itself holds no marker
    have hne : mark ≠ m.program.cursor := by
      rintro rfl
      rw [hm] at hat
      simp at hat
    have hlt : mark < m.program.cursor := by omega
    show m.GoesTo (m.fetched.jump mark).1.program.cursor
    rw [jump_of_lt (Program.loopStart_lt hs)]
    exact .back hlt hm hb hat

theorem goesTo_of_mark (hj : m.upcoming = .mark) (h0 : m.tape.here = 0)
    (hn : ∀ f, m.performed.2 ≠ .fail f) : m.GoesTo m.performed.1.program.cursor := by
  have hi := hp.instruction?_cursor
  have hat : m.program.instruction? m.program.cursor = some .mark := by
    rw [hi]
    rcases (Instruction.resolve_eq_iff rfl).1 hj with ⟨-, h⟩ | ⟨-, h7⟩
    · exact congrArg some h
    · rw [h0] at h7
      exact absurd h7 (by decide)
  have h0 : m.fetched.tape.here = 0 := h0
  rw [performed, hj, perform, if_pos h0] at hn ⊢
  rcases hs : m.fetched.program.loopExit m.program.cursor with _ | resume
  · rw [hs] at hn
    exact absurd rfl (hn _)
  · have hlt := hp.advance.loopExit_lt hs
    obtain ⟨j, hle, rfl, hr⟩ := Program.loopExit_spec hs
    have hr : m.program.instruction? j = some .jumpBack :=
      (m.program.instruction?_advance j).symm.trans hr
    have hfar : m.program.cursor + 3 ≤ j + 1 := by omega
    show m.GoesTo (m.fetched.jump (j + 1)).1.program.cursor
    rw [jump_of_lt hlt]
    exact .forth hfar (hp.exists_halt (hp.succ_lt hr (by decide))) hr hat h0

/-- **The cursor goes on by one line, unless a return takes it back or a marker forth.** -/
theorem execute_goesTo (hs : m.status = .running) {m' : Machine} {e : Event}
    (h : m.execute 1 = (m', e)) (he : e.isFinal = false) : m.GoesTo m'.program.cursor := by
  rw [execute_one hs, cycle_eq] at h
  obtain ⟨rfl, rfl⟩ := Prod.mk.inj h
  rw [settle_program]
  have hn : ∀ f, m.performed.2 ≠ .fail f := by
    intro f hf
    rw [hf] at he
    cases he
  by_cases hj : m.upcoming = .jumpBack
  · exact goesTo_of_jumpBack hp hj hn
  by_cases hm : m.upcoming = .mark ∧ m.tape.here = 0
  · exact goesTo_of_mark hp hm.1 hm.2 hn
  -- no other instruction moves the cursor, which is not on the last line
  have hh : m.program.peek ≠ .halt := by
    intro hh
    rw [performed, upcoming, hh] at he
    cases he
  have hlt := hp.succ_lt hp.instruction?_cursor hh
  have hprog : m.performed.1.program = m.program.advance :=
    perform_program hj fun hi h0 => hm ⟨hi, h0⟩
  rw [hprog, Program.advance, if_pos hlt]
  exact .next

end

/-! ## One instruction after another -/

theorem execute_one_keeps {m m' : Machine} (hs : m.status = .running) {e : Event}
    (h : m.execute 1 = (m', e)) (he : e.isPassing = true) : Keeps m m' := by
  rw [execute_one hs] at h
  obtain ⟨m₁, hk, hc | ⟨text, hc⟩ | ⟨r, hc⟩ | hc | ⟨f, -, hc⟩⟩ := m.cycle_cases <;>
    rw [hc] at h <;> cases h
  · exact hk
  · exact hk
  · cases he
  · cases he
  · cases he

/-- `n` instructions in a row take `m` to `m'`: none of them ends the run or waits, and each takes
    the cursor forward. -/
inductive Climbs : (n : Nat) → (m m' : Machine) → Prop
  | refl (m : Machine) : Climbs 0 m m
  | step {n : Nat} {m m₁ m' : Machine} {e : Event} : m.execute 1 = (m₁, e) →
      e.isPassing = true → m.program.cursor < m₁.program.cursor → Climbs n m₁ m' →
        Climbs (n + 1) m m'

/-- With its next instruction the run is over, waits or goes back. -/
def Turns (m : Machine) : Prop :=
  ∃ m' e, m.execute 1 = (m', e) ∧
    (e.isFinal = true ∨ (∃ r, e = .input r) ∨ m'.program.cursor < m.program.cursor)

namespace Climbs
variable {n : Nat} {m m' : Machine} (h : Climbs n m m')
include h

theorem cursor_le : m.program.cursor + n ≤ m'.program.cursor := by
  induction h with
  | refl => exact Nat.le_refl _
  | step _ _ hlt _ ih => omega

theorem keeps (hs : m.status = .running) : Keeps m m' := by
  induction h with
  | refl m => exact .refl m
  | step hx he _ _ ih =>
    have hk := execute_one_keeps hs hx he
    exact hk.trans (ih (hk.status.trans hs))

/-- **A climb is shorter than the rest of the program.** -/
theorem lt (hp : m.program.WellFormed) (hs : m.status = .running) :
    n < m.program.length - m.program.cursor := by
  have hk := h.keeps hs
  have hlen : m'.program.length = m.program.length := congrArg Array.size hk.instructions
  have hlt := (hk.wellFormed hp).cursor_lt
  have hle := h.cursor_le
  omega

/-- What comes after a climb comes after its instructions. -/
theorem finish {k : Nat} {o : Outcome} (ho : Machine.finish k m' = some o) :
    ∃ o', Machine.finish (n + k) m = some o' ∧ o'.event = o.event := by
  induction h with
  | refl => exact ⟨o, by rwa [Nat.zero_add], rfl⟩
  | @step n m m₁ m' e hx he _ _ ih =>
    obtain ⟨o', ho', hev⟩ := ih ho
    rw [Nat.add_right_comm, Machine.finish, hx, ho']
    cases e with
    | running => exact ⟨o', rfl, hev⟩
    | print text => exact ⟨_, rfl, hev⟩
    | _ => cases he

end Climbs

section
variable {m : Machine} (hp : m.program.WellFormed) (hs : m.status = .running)
include hp hs

/-- **Every run climbs until it turns.** -/
theorem exists_climb : ∃ n m', Climbs n m m' ∧ m'.Turns := by
  -- by induction on the number of lines from the cursor on
  induction hk : m.program.length - m.program.cursor using Nat.strong_induction_on
    generalizing m with
  | h k ih =>
    rcases hx : m.execute 1 with ⟨m₁, e⟩
    rcases e.cases_of_ne_stopped (execute_final (by simp [hs]) hx).1 with he | he | ⟨he, hf⟩
    · exact ⟨0, m, .refl m, m₁, e, hx, Or.inl he⟩
    · exact ⟨0, m, .refl m, m₁, e, hx, Or.inr (Or.inl he)⟩
    · rcases (execute_goesTo hp hs hx hf).forth_or_back with hlt | ⟨hlt, -⟩
      · have hkeep := execute_one_keeps hs hx he
        have hp₁ := hkeep.wellFormed hp
        have hlen : m₁.program.length = m.program.length := congrArg Array.size hkeep.instructions
        have hc := hp₁.cursor_lt
        obtain ⟨n, m', hcl, ht⟩ := ih (m₁.program.length - m₁.program.cursor) (by omega) hp₁
          (hkeep.status.trans hs) rfl
        exact ⟨n + 1, m', .step hx he hlt hcl, ht⟩
      · exact ⟨0, m, .refl m, m₁, e, hx, Or.inr (Or.inr hlt)⟩

/-- **A run that can neither go back nor wait is over in so many instructions as there are lines
    from its cursor on.** -/
theorem finish_of_forward (hc : m.closed = true)
    (hb : ∀ line i, m.program.instruction? line = some i → i ≠ .jumpBack ∧ i ≠ .exec) :
    ∃ o, finish (m.program.length - m.program.cursor) m = some o ∧ o.event.isFinal = true := by
  obtain ⟨n, m', hcl, m₁, e, hx, ht⟩ := exists_climb hp hs
  have hk := hcl.keeps hs
  have hi : ∀ line, m'.program.instruction? line = m.program.instruction? line := fun line =>
    congrArg (·[line]?) hk.instructions
  have he : e.isFinal = true := by
    rcases ht with he | ⟨r, rfl⟩ | hlt
    · exact he
    · have ho := execute_input hx
      rw [hk.closed, hc] at ho
      cases ho
    · by_contra hf
      have hg := execute_goesTo (hk.wellFormed hp) (hk.status.trans hs) hx
        (Bool.eq_false_iff.2 hf)
      rcases hg.forth_or_back with hgt | ⟨-, hat | hat⟩
      · omega
      · exact (hb _ _ ((hi _).symm.trans hat)).1 rfl
      · exact (hb _ _ ((hi _).symm.trans hat)).2 rfl
  have hfin : finish 1 m' = some ⟨[], e, m₁⟩ := by
    rw [finish, hx]
    exact Outcome.after_of_stop (Event.isPassing_of_isFinal he) m₁ _
  obtain ⟨o, ho, hev⟩ := hcl.finish hfin
  have hlt := hcl.lt hp hs
  have hmono := finish_mono ho (m.program.length - m.program.cursor - (n + 1))
  rw [Nat.add_sub_of_le hlt] at hmono
  exact ⟨o, hmono, by rw [hev]; exact he⟩

end

/-! ## Runs -/

/-- **A run goes on line by line, or jumps where the language says.**  An instruction that does not
    end the run takes the cursor to the next line, back to a marker or forward behind a return.
    So instructions in a row that do not go back are fewer than the lines from the cursor on: with
    one more of them the run is over, waits or goes back.  And a source text without returns and
    execute instructions is over in so many instructions as its program has lines, whatever the
    machine that begins it, if no more input comes. -/
theorem control_flow {capacity : Nat} {m : Machine} (hm : Fresh capacity m) {cs : List Call}
    (hs : (m.calls cs).1.status = .running) :
    let s := (m.calls cs).1
    ((s.execute 1).2.isFinal = false → s.GoesTo (s.execute 1).1.program.cursor) ∧
    (∀ n s', Climbs n s s' → n < s.program.length - s.program.cursor) ∧
    (∃ n s', n < s.program.length - s.program.cursor ∧ Climbs n s s' ∧ s'.Turns) ∧
    ∀ (d : Machine) (text : String), d.status = .idle → d.closed = true →
      .jumpBack ∉ Source.decode text → .exec ∉ Source.decode text →
      ∃ d' o, d.start text = .ok d' ∧ d'.program.length = (Source.decode text).length ∧
        finish d'.program.length d' = some o ∧ o.event.isFinal = true := by
  intro s
  have hp : s.program.WellFormed := (hm.sound.calls cs).program
  refine ⟨execute_goesTo hp hs rfl, fun n s' h => h.lt hp hs, ?_, ?_⟩
  · obtain ⟨n, s', hc, ht⟩ := exists_climb hp hs
    exact ⟨n, s', hc.lt hp hs, hc, ht⟩
  · intro d text hd hc hj hx
    have hb : ∀ line i, (d.begun text).program.instruction? line = some i →
        i ≠ .jumpBack ∧ i ≠ .exec := by
      intro line i hi
      rw [Program.instruction?_eq] at hi
      have hmem : i ∈ Source.decode text := List.mem_of_getElem? hi
      constructor
      · rintro rfl
        exact hj hmem
      · rintro rfl
        exact hx hmem
    obtain ⟨o, ho, he⟩ :=
      finish_of_forward (m := d.begun text) (Program.wellFormed_ofSource text) rfl hc hb
    exact ⟨d.begun text, o, start_of_idle hd text, List.size_toArray, ho, he⟩

/-- A return that goes back to its marker, the same marker on a zero cell, which goes forward behind
    the return, and code that only goes on, on a tape that is not blank. -/
theorem control_flow_back_and_forth :
    let m := ofTape (.zeros 0)
    let cs := [.start "MOO OOM moo"]
    let cs' := [.start "MoO MOO OOM moo", .execute 3]
    let d : Machine := ⟨⟨[5], 0, [7]⟩, 3, default, .idle, ['4', '\n'], true⟩
    Machine.blank 1 = .ok m ∧ (m.calls cs).1.program.cursor = 0 ∧ (m.calls cs).1.GoesTo 3 ∧
      (m.calls cs').1.program.cursor = 3 ∧ (m.calls cs').1.GoesTo 1 ∧
      (∀ n t, Climbs n (m.calls cs').1 t → n < 2) ∧
      ∃ d' o, d.start "oom OOM Moo" = .ok d' ∧ finish d'.program.length d' = some o ∧
        o.event.isFinal = true := by
  intro m cs cs' d
  have hm : Fresh 1 m := .blank rfl
  have hs : (m.calls cs).1.status = .running := by decide
  have ht : (m.calls cs').1.status = .running := by decide
  have hs' : ((m.calls cs).1.execute 1).1.program.cursor = 3 := by decide
  have ht' : ((m.calls cs').1.execute 1).1.program.cursor = 1 := by decide
  obtain ⟨hforth, -, -, hf⟩ := control_flow hm hs
  obtain ⟨hback, hlt, -⟩ := control_flow hm ht
  rw [hs'] at hforth
  rw [ht'] at hback
  obtain ⟨d', o, hd, -, ho, he⟩ := hf d "oom OOM Moo" rfl rfl (by decide) (by decide)
  refine ⟨rfl, by decide, hforth (by decide), by decide, hback (by decide), ?_, d', o, hd, ho, he⟩
  intro n t h
  exact lt_of_lt_of_le (hlt n t h) (by decide)

end Machine

end MooCode
