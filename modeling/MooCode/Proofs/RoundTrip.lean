/-
  Moo-code — what is printed can be read back.

  * `Cell.toChar?_ofChar`: a cell that holds a character is that character again, and
    `Cell.denotes_decimal`: the decimal text of a cell is a numeral of what it holds.
  * `execute_printInt`, `execute_printChar`: what a step that prints does, and
    `Reads.execute_integer`, `Reads.execute_char`: what a step that reads does when it finds a
    numeral or a character.
  * `Machine.print_read_inverse`: the text printed for an integer is read as that integer, and a
    character that has been read is printed as it was.
-/
import MooCode.Proofs.Integers

namespace MooCode

namespace Cell

theorem toChar?_ofChar (c : Char) : toChar? (ofChar c) = some c := by
  have hc : (ofChar c).toInt.toNat = c.toNat := by rw [toInt_ofChar, Int.toNat_natCast]
  have hn : (0 : Int) ≤ (ofChar c).toInt := by
    rw [toInt_ofChar]
    exact Int.natCast_nonneg c.toNat
  have hv : c.toNat.isValidChar := c.valid
  rw [toChar?, hc, if_pos ⟨hn, hv⟩, Char.ofNat_toNat]

/-- No character but the first is stored as zero. -/
theorem ofChar_eq_zero_iff {c : Char} : ofChar c = 0 ↔ c = '\u0000' := by
  rw [← toInt_eq_zero_iff, toInt_ofChar, ← Char.toNat_inj, Int.natCast_eq_zero]
  rfl

theorem denotes_decimal (v : Cell) : Text.Numeral.Denotes (decimal v) v.toInt :=
  Text.Numeral.denotes_write v.toInt

/-- The decimal text of a cell with blanks around it is one line, which is trimmed to that text. -/
theorem line_decimal (v : Cell) {a b : List Char}
    (hab : ∀ c ∈ a ++ b, Text.isBlank c = true ∧ c ≠ '\n') :
    '\n' ∉ a ++ decimal v ++ b ∧ Text.trim (a ++ decimal v ++ b) = decimal v := by
  have hd := (denotes_decimal v).not_blank
  obtain ⟨ha, hb⟩ := List.forall_mem_append.1 hab
  constructor
  · simp only [List.mem_append, not_or]
    refine ⟨⟨fun h => (ha _ h).2 rfl, fun h => ?_⟩, fun h => (hb _ h).2 rfl⟩
    exact absurd (hd _ h) (by decide)
  · exact Text.trim_append_blanks (fun c hc => (ha c hc).1) hd fun c hc => (hb c hc).1

end Cell

namespace Machine

variable {m : Machine} {line n : Nat}

/-! ## Steps that print -/

theorem execute_printInt (hs : m.status = .running) (hu : m.upcoming = .printInt) :
    m.execute 1 = (m.fetched, .print (String.ofList (Cell.decimal m.tape.here))) := by
  rw [execute_one hs, cycle_eq, performed, hu]
  rfl

theorem execute_printChar (hs : m.status = .running) (hu : m.upcoming = .character) {c : Char}
    (hc : c ≠ '\u0000') (hh : m.tape.here = Cell.ofChar c) :
    m.execute 1 = (m.fetched, .print (String.singleton c)) := by
  have h0 : m.fetched.tape.here ≠ 0 := by
    intro h0
    exact hc (Cell.ofChar_eq_zero_iff.1 (hh.symm.trans h0))
  have hp : Cell.toChar? m.fetched.tape.here = some c :=
    (congrArg Cell.toChar? hh).trans (Cell.toChar?_ofChar c)
  rw [execute_one hs, cycle_eq, performed, hu, perform, if_neg h0, printChar, hp]
  rfl

/-! ## Steps that read -/

namespace Reads

/-- A line that is a numeral of a cell is stored as that cell. -/
theorem execute_integer (h : m.Reads .integer line n) {l rest : List Char}
    (hi : m.input = l ++ '\n' :: rest) (hl : '\n' ∉ l) {v : Cell}
    (hv : Text.Numeral.Denotes (Text.trim l) v.toInt) : ∃ p : Program, m.execute n =
      ({ m with program := p, tape := m.tape.set v, input := rest, status := .running },
        .running) := by
  obtain ⟨p, ⟨w, hw, hx⟩ | ⟨hw, -⟩⟩ := (readsInteger_iff.2 h).execute_line hi hl
  · obtain rfl : w = v := Int32.toInt_inj.1 (hw.unique hv)
    exact ⟨p, hx⟩
  · exact absurd hv (hw v)

theorem execute_char (h : m.Reads .char line n) {c : Char} {rest : List Char}
    (hi : m.input = c :: rest) : ∃ p : Program, m.execute n =
      ({ m with program := p, tape := m.tape.set (Cell.ofChar c), input := rest,
                status := .running }, .running) := by
  obtain ⟨p, hp⟩ := h.execute_eq
  have hr : { m with program := p }.read .char =
      ({ m with program := p, tape := m.tape.set (Cell.ofChar c), input := rest }, .taken) := by
    simp only [read, readChar, hi]
  exact ⟨p, (hp _).1 hr⟩

end Reads

/-! ## There and back -/

/-- **Printing and reading are inverse.**
    * Let a run print a cell as an integer.  The text that it prints, with any blanks around it, may
      be entered as a line into any machine without input.  Whatever machine comes to serve an
      integer request with that input stores in its current cell the cell that was printed.
    * Let a run read a character other than U+0000, which a character instruction does on a zero
      cell.  The current cell then holds its code point, and a character instruction on a cell
      that holds this prints the character, and does not fail. -/
theorem print_read_inverse :
    (∀ (p : Machine) (v : Cell), p.status = .running → p.upcoming = .printInt → p.tape.here = v →
      ∃ text, (p.execute 1).2 = .print text ∧
        ∀ (a b : List Char) (m s : Machine) (line n : Nat),
          (∀ c ∈ a ++ b, Text.isBlank c = true ∧ c ≠ '\n') → m.input = [] →
          s.input = (m.enter (String.ofList a ++ text ++ String.ofList b)).input →
          s.Reads .integer line n →
          (s.execute n).2 = .running ∧ (s.execute n).1.tape = s.tape.set v ∧
            (s.execute n).1.input = []) ∧
    ∀ (s : Machine) (c : Char) (rest : List Char) (line n : Nat), c ≠ '\u0000' →
      s.Reads .char line n → s.input = c :: rest →
      let after := s.execute n
      after.2 = .running ∧ after.1.status = .running ∧ after.1.input = rest ∧
        (∃ v : Cell, v.toInt = c.toNat ∧ after.1.tape = s.tape.set v) ∧
        ∀ x : Machine, x.status = .running → x.upcoming = .character →
          x.tape.here = after.1.tape.here → x.execute 1 = (x.fetched, .print (String.singleton c)) := by
  refine ⟨?_, ?_⟩
  · rintro p v hs hu rfl
    refine ⟨_, congrArg Prod.snd (execute_printInt hs hu), ?_⟩
    intro a b m s line n hab hm hi hr
    obtain ⟨hl, ht⟩ := Cell.line_decimal p.tape.here hab
    have hi' : s.input = (a ++ Cell.decimal p.tape.here ++ b) ++ '\n' :: [] := by
      simp [hi, enter, hm]
    have hd := Cell.denotes_decimal p.tape.here
    rw [← ht] at hd
    obtain ⟨q, hx⟩ := hr.execute_integer hi' hl hd
    rw [hx]
    exact ⟨rfl, rfl, rfl⟩
  · intro s c rest line n hc hr hi after
    obtain ⟨q, hx⟩ := hr.execute_char hi
    rw [show after = _ from hx]
    refine ⟨rfl, rfl, rfl, ⟨Cell.ofChar c, Cell.toInt_ofChar c, rfl⟩, ?_⟩
    intro x hs hu hh
    exact execute_printChar hs hu hc hh

/-- The least integer that a cell can hold, printed by one machine and entered with blanks of two
    kinds into another one that waits, and a character that takes four bytes. -/
theorem print_read_inverse_least :
    let p := ofTape ⟨[], -2147483648, []⟩
    let m := ofTape (.zeros 1)
    let cs := [.start "oom", .execute 9]
    let cs' := [.start "Moo Moo", .enter "😀"]
    ((p.calls [.start "OOM"]).1.execute 1).2 = .print "-2147483648" ∧
      (m.calls cs).1.status = .waiting .integer 0 ∧
      (((m.calls cs).1.enter "\u00A0-2147483648\t").execute 0).1.tape.cells =
        [-2147483648, 0] ∧
      ((m.calls cs').1.execute 1).1.tape.cells = [0x1F600, 0] ∧
      ((m.calls cs').1.execute 1).1.execute 1 =
        (((m.calls cs').1.execute 1).1.fetched, .print "😀") := by
  intro p m cs cs'
  have hw : (m.calls cs).1.status = .waiting .integer 0 := by decide
  have hp : ((p.calls [.start "OOM"]).1.execute 1).2 = .print "-2147483648" := by decide
  obtain ⟨hint, hchar⟩ := print_read_inverse
  obtain ⟨text, ht, hread⟩ := hint (p.calls [.start "OOM"]).1 (-2147483648) (by decide) (by decide)
    (by decide)
  obtain rfl : "-2147483648" = text := Event.print.inj (hp.symm.trans ht)
  obtain ⟨-, htape, -⟩ := hread ['\u00A0'] ['\t'] (m.calls cs).1
    ((m.calls cs).1.enter "\u00A0-2147483648\t") 0 0 (by simp; decide) (by decide) (by decide)
    (.resume hw)
  obtain ⟨-, hs, -, -, hprint⟩ := hchar (m.calls cs').1 '😀' ['\n'] 0 1 (by decide)
    (.perform (by decide) (by decide)) (by decide)
  refine ⟨hp, hw, ?_, by decide, hprint _ hs (by decide) rfl⟩
  rw [htape]
  decide

end Machine

end MooCode
