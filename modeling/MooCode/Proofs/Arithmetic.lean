/-
  Moo-code — arithmetic never wraps.

  * `Machine.ideal m`: the machine `m`, with its cells and its register taken for the integers
    they hold.
  * `cycle_ideal`: a cycle of `m` is that of `m.ideal` if what it counts to is in the range of a
    cell; `cycle_overflow`: otherwise it gives the run up.
  * `execute_ideal`, `calls_ideal`: slices and calls that count within the range are the same on
    both machines.
  * `execute_counted`, `calls_counted`: the cycle that counts to a given result, which both
    machines come to if all results before it are in range.
  * `Machine.calls_exact`: the machine does what the ideal machine does, up to the first result
    that no cell can hold, and there it fails.
-/
import MooCode.Proofs.Ideal
import MooCode.Proofs.Suspension

namespace MooCode

/-! ## Cells and the integers they hold -/

namespace Cell

theorem inRange_toInt (c : Cell) : InRange c.toInt := by
  have hl := c.le_toInt
  have hu := c.toInt_lt
  constructor <;> omega

theorem ofInt?_eq_none_iff {n : Int} : ofInt? n = none ↔ ¬ InRange n := by
  unfold ofInt? InRange
  split <;> simp <;> omega

theorem ofInt?_of_inRange {n : Int} (h : InRange n) : ∃ c, ofInt? n = some c ∧ c.toInt = n := by
  rcases hc : ofInt? n with _ | c
  · exact absurd h (ofInt?_eq_none_iff.1 hc)
  · exact ⟨c, rfl, ofInt?_eq_some_iff.1 hc⟩

theorem toInt_eq_zero_iff {c : Cell} : c.toInt = 0 ↔ c = 0 := by
  rw [← Int32.toInt_inj]
  rfl

theorem toInt_ofChar (ch : Char) : (ofChar ch).toInt = ch.toNat := by
  have hv : ch.toNat < 2 ^ 31 := by
    obtain h | ⟨-, h⟩ := ch.valid <;> simp only [Char.toNat] <;> omega
  exact Int32.toInt_ofNat_of_lt hv

theorem toInt_ofDecimal? (cs : List Char) :
    (ofDecimal? cs).map Int32.toInt = Ideal.ofDecimal? cs := by
  rw [ofDecimal?, Ideal.ofDecimal?]
  rcases Text.Numeral.integer? cs with _ | n
  · rfl
  · rw [Option.bind_some, Option.filter_some]
    rcases hc : ofInt? n with _ | c
    · have hr := ofInt?_eq_none_iff.1 hc
      simp [hr]
    · have hn := ofInt?_eq_some_iff.1 hc
      have hr : InRange n := hn ▸ inRange_toInt c
      simp [hr, hn]

end Cell

/-- An entry of a list made of two parts is in the first part, or the whole first part is before
    it. -/
theorem append_eq_append_cons {α : Type} {as bs before after : List α} {v : α}
    (h : as ++ bs = before ++ v :: after) : (∃ rest, as = before ++ v :: rest) ∨
      ∃ rest, before = as ++ rest ∧ bs = rest ++ v :: after := by
  rcases List.append_eq_append_iff.1 h with ⟨rest, hx, hb⟩ | ⟨_ | ⟨w, rest⟩, ha, hb⟩
  · exact Or.inr ⟨rest, hx, hb⟩
  · exact Or.inr ⟨[], by simpa using ha.symm, hb.symm⟩
  · obtain ⟨rfl, -⟩ := List.cons.inj hb
    exact Or.inl ⟨rest, ha⟩

/-- The tape with the integers that its cells hold. -/
def Tape.ideal (t : Tape) : Ideal.Tape :=
  ⟨t.left.map Int32.toInt, t.here.toInt, t.right.map Int32.toInt⟩

namespace Tape

theorem zeros_ideal (n : Nat) : (zeros n).ideal = .zeros n := by
  simp [zeros, ideal, Ideal.Tape.zeros]

theorem clear_ideal (t : Tape) : t.clear.ideal = t.ideal.clear := by
  rw [clear, zeros_ideal]
  simp [ideal, Ideal.Tape.clear]

theorem set_ideal (t : Tape) (v : Cell) : (t.set v).ideal = t.ideal.set v.toInt :=
  rfl

theorem back_ideal (t : Tape) : t.ideal.back = t.back.map ideal := by
  rcases t with ⟨_ | ⟨l, left⟩, here, right⟩ <;> rfl

theorem forward_ideal (t : Tape) : t.ideal.forward = t.forward.map ideal := by
  rcases t with ⟨left, here, _ | ⟨r, right⟩⟩ <;> rfl

theorem increment_of_inRange {t : Tape} (h : Cell.InRange (t.here.toInt + 1)) :
    ∃ v, t.increment = .ok (t.set v) ∧ v.toInt = t.here.toInt + 1 := by
  obtain ⟨v, hv, hi⟩ := Cell.ofInt?_of_inRange h
  exact ⟨v, by rw [increment, Cell.succ?, hv], hi⟩

theorem decrement_of_inRange {t : Tape} (h : Cell.InRange (t.here.toInt - 1)) :
    ∃ v, t.decrement = .ok (t.set v) ∧ v.toInt = t.here.toInt - 1 := by
  obtain ⟨v, hv, hi⟩ := Cell.ofInt?_of_inRange h
  exact ⟨v, by rw [decrement, Cell.pred?, hv], hi⟩

theorem increment_overflow {t : Tape} (h : ¬ Cell.InRange (t.here.toInt + 1)) :
    t.increment = .error { cause := .overflow } := by
  rw [increment, Cell.succ?, Cell.ofInt?_eq_none_iff.2 h]

theorem decrement_overflow {t : Tape} (h : ¬ Cell.InRange (t.here.toInt - 1)) :
    t.decrement = .error { cause := .overflow } := by
  rw [decrement, Cell.pred?, Cell.ofInt?_eq_none_iff.2 h]

end Tape

namespace Machine

/-- The machine with the integers that its cells and its register hold. -/
def ideal (m : Machine) : Ideal.Machine :=
  ⟨m.tape.ideal, m.register.toInt, m.program, m.status, m.input, m.closed⟩

section
variable (m : Machine)

theorem here_ideal : m.ideal.tape.here = m.tape.here.toInt :=
  rfl

theorem register_ideal : m.ideal.register = m.register.toInt :=
  rfl

theorem program_ideal : m.ideal.program = m.program :=
  rfl

theorem status_ideal : m.ideal.status = m.status :=
  rfl

theorem upcoming_ideal : m.ideal.upcoming = m.upcoming :=
  rfl

theorem fetched_ideal : m.ideal.fetched = m.fetched.ideal :=
  rfl

end

/-! ## Instructions -/

/-- A read stores the same integer on both machines. -/
theorem read_ideal (m : Machine) (r : Request) :
    m.ideal.read r = ((m.read r).1.ideal, (m.read r).2) := by
  cases r with
  | char =>
    have hi : m.ideal.input = m.input := rfl
    simp only [Ideal.Machine.read, Ideal.Machine.readChar, read, readChar, hi]
    rcases m.input with _ | ⟨c, rest⟩
    · rfl
    · simp only [ideal, Tape.set_ideal, Cell.toInt_ofChar]
  | integer =>
    have hn : m.ideal.nextLine? = m.nextLine? := rfl
    simp only [Ideal.Machine.read, Ideal.Machine.readInteger, read, readInteger, hn]
    rcases m.nextLine? with _ | ⟨line, rest⟩
    · rfl
    · simp only [← Cell.toInt_ofDecimal?]
      rcases Cell.ofDecimal? (Text.trim line) with _ | v <;> rfl

theorem demand_ideal (m : Machine) (r : Request) :
    m.ideal.demand r = ((m.demand r).1.ideal, (m.demand r).2) := by
  simp only [Ideal.Machine.demand, demand, read_ideal]
  rcases m.read r with ⟨m', _ | _ | f⟩ <;> rfl

theorem withTape_ideal (m : Machine) (t : Except Fault Tape) :
    m.ideal.withTape (t.map Tape.ideal) = ((m.withTape t).1.ideal, (m.withTape t).2) := by
  cases t <;> rfl

theorem jump_ideal (m : Machine) (line : Nat) :
    m.ideal.jump line = ((m.jump line).1.ideal, (m.jump line).2) := by
  rw [Ideal.Machine.jump, jump, program_ideal]
  cases m.program.goto line <;> rfl

/-- **An instruction does the same on both machines unless it counts beyond the range of a
    cell.** -/
theorem perform_ideal {m : Machine} {i : Instruction}
    (hi : i = .increment → Cell.InRange (m.tape.here.toInt + 1))
    (hd : i = .decrement → Cell.InRange (m.tape.here.toInt - 1)) (line : Nat) :
    m.ideal.perform i line = ((m.perform i line).1.ideal, (m.perform i line).2) := by
  cases i with
  | jumpBack =>
    simp only [Ideal.Machine.perform, perform, program_ideal]
    rcases m.program.loopStart line with _ | mark
    · rfl
    · exact jump_ideal m mark
  | left =>
    show m.ideal.withTape m.tape.ideal.back = _
    rw [Tape.back_ideal]
    exact withTape_ideal m _
  | right =>
    show m.ideal.withTape m.tape.ideal.forward = _
    rw [Tape.forward_ideal]
    exact withTape_ideal m _
  | increment =>
    obtain ⟨v, ht, hv⟩ := Tape.increment_of_inRange (hi rfl)
    simp only [Ideal.Machine.perform, perform, ht, withTape, ideal, Tape.set_ideal, hv]
    rfl
  | decrement =>
    obtain ⟨v, ht, hv⟩ := Tape.decrement_of_inRange (hd rfl)
    simp only [Ideal.Machine.perform, perform, ht, withTape, ideal, Tape.set_ideal, hv]
    rfl
  | exec | clear | printInt | halt => rfl
  | character =>
    by_cases h0 : m.tape.here = 0
    · simp only [Ideal.Machine.perform, perform, here_ideal, Cell.toInt_eq_zero_iff, h0, if_true]
      exact demand_ideal m _
    · simp only [Ideal.Machine.perform, perform, here_ideal, Cell.toInt_eq_zero_iff, h0, if_false]
      have ht : Ideal.toChar? m.ideal.tape.here = Cell.toChar? m.tape.here := rfl
      rw [Ideal.Machine.printChar, printChar, ht]
      cases Cell.toChar? m.tape.here <;> rfl
  | mark =>
    by_cases h0 : m.tape.here = 0
    · simp only [Ideal.Machine.perform, perform, here_ideal, program_ideal,
        Cell.toInt_eq_zero_iff, h0, if_true]
      rcases m.program.loopExit line with _ | resume
      · rfl
      · exact jump_ideal m resume
    · simp only [Ideal.Machine.perform, perform, here_ideal, Cell.toInt_eq_zero_iff, h0, if_false]
  | transfer =>
    by_cases h0 : m.register = 0
    · simp only [Ideal.Machine.perform, perform, register_ideal, Cell.toInt_eq_zero_iff, h0,
        if_true]
      rfl
    · simp only [Ideal.Machine.perform, perform, register_ideal, Cell.toInt_eq_zero_iff, h0,
        if_false]
      rfl
  | readInt => exact demand_ideal m _

theorem settle_ideal (m : Machine) (line : Nat) (e : Effect) :
    m.ideal.settle line e = ((m.settle line e).1.ideal, (m.settle line e).2) := by
  cases e <;> rfl

/-! ## Cycles -/

/-- **A cycle is the same on both machines if what it counts to is in range.** -/
theorem cycle_ideal {m : Machine} (h : ∀ v ∈ m.ideal.counted?, Cell.InRange v) :
    m.ideal.cycle = (m.cycle.1.ideal, m.cycle.2) := by
  have hi : m.upcoming = .increment → Cell.InRange (m.fetched.tape.here.toInt + 1) := by
    intro hu
    refine h _ ?_
    rw [Ideal.Machine.counted?, upcoming_ideal, hu]
    rfl
  have hd : m.upcoming = .decrement → Cell.InRange (m.fetched.tape.here.toInt - 1) := by
    intro hu
    refine h _ ?_
    rw [Ideal.Machine.counted?, upcoming_ideal, hu]
    rfl
  have hp := perform_ideal hi hd m.program.cursor
  rw [cycle_eq, Ideal.Machine.cycle, fetched_ideal, upcoming_ideal, program_ideal, hp]
  exact settle_ideal _ _ _

/-- **A cycle that counts beyond the range gives the run up** and has no other effect. -/
theorem cycle_overflow {m : Machine} {v : Int} (h : m.ideal.counted? = some v)
    (hv : ¬ Cell.InRange v) : m.cycle = ({ m.fetched with status := .idle },
      some (.failed ⟨.overflow, some m.program.cursor, ""⟩)) := by
  have hp : m.performed = (m.fetched, .fail { cause := .overflow }) := by
    rw [Ideal.Machine.counted?, upcoming_ideal] at h
    rw [performed]
    split at h
    · next hu =>
      have ht : m.fetched.tape.increment = .error { cause := .overflow } :=
        Tape.increment_overflow (Option.some.inj h ▸ hv)
      rw [hu, perform, ht, withTape]
    · next hu =>
      have ht : m.fetched.tape.decrement = .error { cause := .overflow } :=
        Tape.decrement_overflow (Option.some.inj h ▸ hv)
      rw [hu, perform, ht, withTape]
    · cases h
  rw [cycle_eq, hp]
  rfl

/-! ## Slices -/

theorem advance_ideal {n : Nat} {m : Machine}
    (h : ∀ v ∈ m.ideal.advanceResults n, Cell.InRange v) :
    m.ideal.advance n = ((advance n m).1.ideal, (advance n m).2) := by
  induction n generalizing m with
  | zero => rfl
  | succ n ih =>
    have hc : m.ideal.cycle = (m.cycle.1.ideal, m.cycle.2) := by
      refine cycle_ideal ?_
      intro v hv
      refine h v ?_
      rw [Ideal.Machine.advanceResults]
      exact List.mem_append_left _ (Option.mem_toList.2 hv)
    rcases hm : m.cycle with ⟨m₁, _ | e⟩ <;> rw [hm] at hc
    · simp only [Ideal.Machine.advance, advance, hc, hm]
      refine ih ?_
      intro v hv
      refine h v ?_
      rw [Ideal.Machine.advanceResults_of_next hc]
      exact List.mem_append_right _ hv
    · simp only [Ideal.Machine.advance, advance, hc, hm]

/-- Slices that count within the range are the same on both machines. -/
theorem execute_ideal {m : Machine} {n : Nat}
    (h : ∀ v ∈ m.ideal.executeResults n, Cell.InRange v) :
    m.ideal.execute n = ((m.execute n).1.ideal, (m.execute n).2) := by
  rcases m.execute_cases with ⟨hs, hx⟩ | ⟨hs, hx⟩ |
    ⟨r, line, hs, ⟨m₁, hr, hx⟩ | ⟨hr, hx⟩ | ⟨m₁, f, hr, hx⟩⟩ <;> rw [hx]
  · simp only [Ideal.Machine.execute, status_ideal, hs]
  · simp only [Ideal.Machine.executeResults, status_ideal, hs] at h
    simp only [Ideal.Machine.execute, status_ideal, hs]
    exact advance_ideal h
  · simp only [Ideal.Machine.executeResults, status_ideal, hs, read_ideal, hr] at h
    simp only [Ideal.Machine.execute, status_ideal, hs, read_ideal, hr]
    exact advance_ideal (m := { m₁ with status := .running }) h
  · simp only [Ideal.Machine.execute, status_ideal, hs, read_ideal, hr]
  · simp only [Ideal.Machine.execute, status_ideal, hs, read_ideal, hr]
    rfl

section
variable {before after : List Int} {v : Int} (hb : ∀ w ∈ before, Cell.InRange w)
include hb

/-- The cycle that counts to `v`, if all that is counted before it is in range. -/
theorem advance_counted {n : Nat} {m : Machine}
    (h : m.ideal.advanceResults n = before ++ v :: after) :
    ∃ a d, a < n ∧ advance a m = (d, .running) ∧ m.ideal.advanceResults a = before ∧
      d.ideal.counted? = some v := by
  induction n generalizing m before with
  | zero => simp [Ideal.Machine.advanceResults] at h
  | succ n ih =>
    obtain ⟨rest, hq⟩ | ⟨before', rfl, hrest⟩ := append_eq_append_cons h
    · -- it is the first cycle, before which nothing is counted
      rcases ho : m.ideal.counted? with _ | w <;> rw [ho] at hq
      · simp at hq
      · obtain ⟨rfl, rfl⟩ : before = [] ∧ w = v := by
          rcases before with _ | ⟨u, before⟩ <;> simp_all
        exact ⟨0, m, by omega, rfl, rfl, ho⟩
    · have hc : m.ideal.cycle = (m.cycle.1.ideal, m.cycle.2) := by
        refine cycle_ideal ?_
        intro w hw
        exact hb w (List.mem_append_left _ (Option.mem_toList.2 hw))
      rcases hm : m.cycle with ⟨m₁, _ | e⟩ <;> rw [hm] at hc <;> rw [hc] at hrest
      · obtain ⟨a, d, hlt, ha, hr, hd⟩ :=
          ih (fun w hw => hb w (List.mem_append_right _ hw)) hrest
        refine ⟨a + 1, d, by omega, ?_, ?_, hd⟩
        · simp only [advance, hm]
          exact ha
        · rw [Ideal.Machine.advanceResults_of_next hc, hr]
      · simp at hrest

theorem execute_counted {m : Machine} {n : Nat}
    (h : m.ideal.executeResults n = before ++ v :: after) :
    ∃ a d, a < n ∧ m.execute a = (d, .running) ∧ m.ideal.executeResults a = before ∧
      d.ideal.counted? = some v := by
  rcases m.execute_cases with ⟨hs, hx⟩ | ⟨hs, hx⟩ |
    ⟨r, line, hs, ⟨m₁, hr, hx⟩ | ⟨hr, hx⟩ | ⟨m₁, f, hr, hx⟩⟩ <;>
    simp only [Ideal.Machine.executeResults, status_ideal, hs] at h ⊢
  · simp at h
  · obtain ⟨a, d, hlt, ha, hb', hd⟩ := advance_counted hb h
    exact ⟨a, d, hlt, (hx a).trans ha, hb', hd⟩
  · simp only [read_ideal, hr] at h ⊢
    obtain ⟨a, d, hlt, ha, hb', hd⟩ := advance_counted (m := { m₁ with status := .running }) hb h
    exact ⟨a, d, hlt, (hx a).trans ha, hb', hd⟩
  · simp [read_ideal, hr] at h
  · simp [read_ideal, hr] at h

end

/-- A slice gives the run up at the cycle that counts beyond the range. -/
theorem execute_overflow {m d : Machine} {a n : Nat} (hlt : a < n)
    (ha : m.execute a = (d, .running)) {v : Int} (hd : d.ideal.counted? = some v)
    (hv : ¬ Cell.InRange v) : m.execute n = ({ d.fetched with status := .idle },
      .failed ⟨.overflow, some d.program.cursor, ""⟩) := by
  obtain ⟨k, rfl⟩ : ∃ k, n = a + (k + 1) := ⟨n - a - 1, by omega⟩
  rw [execute_add_of_running ha, execute, status_of_running ha]
  simp only [advance, cycle_overflow hd hv]

/-! ## Calls -/

/-- What is possible only while no run is on is possible for both machines or for neither. -/
theorem attempt_ideal (m m' : Machine) : m.ideal.unlessActive m'.ideal =
    ((m.attempt (if m.isActive then .error busy else .ok m')).1.ideal,
      (m.attempt (if m.isActive then .error busy else .ok m')).2) := by
  rw [Ideal.Machine.unlessActive, status_ideal]
  by_cases hs : m.status = .idle
  · simp [isActive, hs, attempt]
  · simp [isActive, hs, attempt, busy]

theorem call_ideal {m : Machine} {c : Call}
    (h : ∀ v ∈ m.ideal.callResults c, Cell.InRange v) :
    m.ideal.call c = ((m.call c).1.ideal, (m.call c).2) := by
  cases c with
  | start text =>
    exact attempt_ideal m { m with program := Program.ofSource text, status := .running }
  | reset =>
    have hc : { m with tape := m.tape.clear, register := 0 }.ideal =
        { m.ideal with tape := m.ideal.tape.clear, register := 0 } := by
      simp only [ideal, Tape.clear_ideal]
      rfl
    show m.ideal.unlessActive { m.ideal with tape := m.ideal.tape.clear, register := 0 } = _
    rw [← hc]
    exact attempt_ideal m _
  | enter text | closeInput => rfl
  | execute n => simp only [Ideal.Machine.call, call, execute_ideal h]

/-- Calls that count within the range are the same to both machines. -/
theorem calls_ideal {m : Machine} {cs : List Call}
    (h : ∀ v ∈ m.ideal.results cs, Cell.InRange v) :
    m.ideal.calls cs = ((m.calls cs).1.ideal, (m.calls cs).2) := by
  induction cs generalizing m with
  | nil => rfl
  | cons c cs ih =>
    have hc : m.ideal.call c = ((m.call c).1.ideal, (m.call c).2) := by
      refine call_ideal ?_
      intro v hv
      exact h v (List.mem_append_left _ hv)
    have hcs : ∀ v ∈ (m.call c).1.ideal.results cs, Cell.InRange v := by
      intro v hv
      refine h v (List.mem_append_right _ ?_)
      rw [hc]
      exact hv
    simp only [Ideal.Machine.calls, calls, hc, ih hcs]

/-- The slice that counts to `v`, and the cycle of it that does so. -/
theorem calls_counted {m : Machine} {cs : List Call} {before after : List Int} {v : Int}
    (hb : ∀ w ∈ before, Cell.InRange w) (h : m.ideal.results cs = before ++ v :: after) :
    ∃ cs₁ n cs₂ a d, cs = cs₁ ++ .execute n :: cs₂ ∧ a < n ∧
      m.ideal.results (cs₁ ++ [.execute a]) = before ∧
      (m.calls cs₁).1.execute a = (d, .running) ∧ d.ideal.counted? = some v := by
  induction cs generalizing m before with
  | nil => simp [Ideal.Machine.results] at h
  | cons c cs ih =>
    obtain ⟨rest, hq⟩ | ⟨before', rfl, hrest⟩ := append_eq_append_cons h
    · cases c with
      | execute n =>
        obtain ⟨a, d, hlt, ha, hr, hd⟩ := execute_counted hb hq
        refine ⟨[], n, cs, a, d, rfl, hlt, ?_, ha, hd⟩
        rw [← hr]
        exact List.append_nil _
      | start _ | reset | enter _ | closeInput => simp [Ideal.Machine.callResults] at hq
    · have hc : m.ideal.call c = ((m.call c).1.ideal, (m.call c).2) := by
        refine call_ideal ?_
        intro w hw
        exact hb w (List.mem_append_left _ hw)
      rw [hc] at hrest
      obtain ⟨cs₁, n, cs₂, a, d, rfl, hlt, hr, ha, hd⟩ :=
        ih (fun w hw => hb w (List.mem_append_right _ hw)) hrest
      refine ⟨c :: cs₁, n, cs₂, a, d, rfl, hlt, ?_, ha, hd⟩
      simp only [List.cons_append, Ideal.Machine.results, hc, hr]

/-- **Arithmetic never wraps.**  The same calls to a machine and to the ideal machine that begins
    with the same integers:
    * as long as all that the ideal machine counts to is in the range of a cell, the answers are
      the same, and so are the machines;
    * at the first increment or decrement of the ideal machine whose result `v` is not, the
      machine, which has come to the same cycle in the same slice, gives the run up with an
      overflow in the line of that instruction, and tape, register and input are as they were
      before it. -/
theorem calls_exact (m : Machine) (cs : List Call) :
    ((∀ v ∈ m.ideal.results cs, Cell.InRange v) →
      m.ideal.calls cs = ((m.calls cs).1.ideal, (m.calls cs).2)) ∧
    ∀ before v after, m.ideal.results cs = before ++ v :: after →
      (∀ w ∈ before, Cell.InRange w) → ¬ Cell.InRange v →
      ∃ cs₁ n cs₂ a d m', cs = cs₁ ++ .execute n :: cs₂ ∧ a < n ∧
        m.ideal.results (cs₁ ++ [.execute a]) = before ∧
        m.ideal.calls cs₁ = ((m.calls cs₁).1.ideal, (m.calls cs₁).2) ∧
        (m.calls cs₁).1.execute a = (d, .running) ∧
        (m.ideal.calls cs₁).1.execute a = (d.ideal, .running) ∧
        d.ideal.counted? = some v ∧
        (m.calls cs₁).1.execute n = (m', .failed ⟨.overflow, some d.program.cursor, ""⟩) ∧
        m'.tape = d.tape ∧ m'.register = d.register ∧ m'.input = d.input ∧
        m'.closed = d.closed ∧ m'.status = .idle := by
  refine ⟨calls_ideal, ?_⟩
  intro before v after h hb hv
  obtain ⟨cs₁, n, cs₂, a, d, hcs, hlt, hr, ha, hd⟩ := calls_counted hb h
  have hsplit := Ideal.Machine.results_append m.ideal cs₁ [.execute a]
  rw [hr] at hsplit
  have hi : m.ideal.calls cs₁ = ((m.calls cs₁).1.ideal, (m.calls cs₁).2) := by
    refine calls_ideal ?_
    intro w hw
    exact hb w (hsplit ▸ List.mem_append_left _ hw)
  have hx : (m.ideal.calls cs₁).1.execute a = (d.ideal, .running) := by
    rw [hi] at hsplit ⊢
    have he := execute_ideal (m := (m.calls cs₁).1) (n := a) (by
      intro w hw
      refine hb w (hsplit ▸ List.mem_append_right _ ?_)
      simpa [Ideal.Machine.results, Ideal.Machine.callResults] using hw)
    rw [he, ha]
  exact ⟨cs₁, n, cs₂, a, d, _, hcs, hlt, hr, hi, ha, hx, hd, execute_overflow hlt ha hd hv, rfl,
    rfl, rfl, rfl, rfl⟩

/-- One more than the greatest integer that a cell can hold. -/
theorem calls_exact_greatest :
    let m := ofTape (.zeros 0)
    let cs := [.start "oom MoO MoO OOM", .enter "2147483646", .execute 9]
    m.ideal.results cs = [2147483647] ++ [2147483648] ∧
    (m.ideal.calls cs).2 = [.done, .done, .event (.print "2147483648")] ∧
    (m.calls cs).2 = [.done, .done, .event (.failed ⟨.overflow, some 2, ""⟩)] ∧
    (m.calls cs).1.tape.cells = [2147483647] ∧
    ∃ cs₁ n cs₂, ∃ d m' : Machine, cs = cs₁ ++ .execute n :: cs₂ ∧
      d.ideal.counted? = some 2147483648 ∧
      (m.calls cs₁).1.execute n = (m', .failed ⟨.overflow, some d.program.cursor, ""⟩) ∧
      m'.tape = d.tape := by
  intro m cs
  have hr : m.ideal.results cs = [2147483647] ++ [2147483648] := by decide
  obtain ⟨cs₁, n, cs₂, -, d, m', hcs, -, -, -, -, -, hd, hx, ht, -⟩ :=
    (calls_exact m cs).2 [2147483647] 2147483648 [] hr (by decide) (by decide)
  exact ⟨hr, by decide, by decide, by decide, cs₁, n, cs₂, d, m', hcs, hd, hx, ht⟩

end Machine

end MooCode
