/-
  Moo-code — well-formed programs.

  * `Program.WellFormed p`: `halt` is the last instruction of `p` and no other one,
    and the cursor is on a line of `p`.
  * `Program.wellFormed_ofSource`: the program of every source text is well formed, and
    `Program.length_ofSource_le`: it takes three bytes to spell one instruction.
  * The cursor of a well-formed program stays on its lines: `WellFormed.advance`
    for the step to the next line, `loopStart_lt` and `WellFormed.loopExit_lt` for the
    two searches that say where a jump goes.
-/
import MooCode.Program
import MooCode.Proofs.Text

namespace MooCode

/-! ## What a source text spells -/

theorem Instruction.ofBytes?_eq_some_iff {bs : List UInt8} {i : Instruction} :
    ofBytes? bs = some i ↔ i ∈ spelled ∧ Text.Utf8.encode i.label.toList = bs := by
  have hi : ∀ i ∈ spelled, ofBytes? (Text.Utf8.encode i.label.toList) = some i := by decide
  constructor
  · intro h
    rw [ofBytes?, List.lookup_eq_some_iff] at h
    obtain ⟨l₁, l₂, hl, -⟩ := h
    have hm : (bs, i) ∈ spellings := by rw [hl]; simp
    obtain ⟨j, hj, he⟩ := List.mem_map.1 hm
    cases he
    exact ⟨hj, rfl⟩
  · rintro ⟨hm, rfl⟩
    exact hi i hm

theorem Instruction.ofBytes?_ne_halt {bs : List UInt8} {i : Instruction}
    (h : ofBytes? bs = some i) : i ≠ halt := by
  rintro rfl
  exact absurd (ofBytes?_eq_some_iff.1 h).1 (by decide)

namespace Source

theorem halt_notMem_scan (bs : List UInt8) : .halt ∉ scan bs := by
  fun_induction scan bs with
  | case1 a b c rest i hi ih =>
    rw [List.mem_cons, not_or]
    exact ⟨(Instruction.ofBytes?_ne_halt hi).symm, ih⟩
  | case2 a b c rest _ ih => exact ih
  | case3 => simp

theorem length_scan_le (bs : List UInt8) : 3 * (scan bs).length ≤ bs.length := by
  fun_induction scan bs with
  | case1 a b c rest i hi ih => simp only [List.length_cons]; omega
  | case2 a b c rest _ ih => simp only [List.length_cons] at ih ⊢; omega
  | case3 => simp

end Source

namespace Program

/-- `halt` is the last instruction and no other one, and the cursor is on a line. -/
structure WellFormed (p : Program) : Prop where
  ends : ∃ is, p.instructions.toList = is ++ [.halt] ∧ .halt ∉ is
  cursor_lt : p.cursor < p.length

theorem length_eq (p : Program) : p.length = p.instructions.toList.length :=
  rfl

theorem instruction?_eq (p : Program) (line : Nat) :
    p.instruction? line = p.instructions.toList[line]? := by
  simp [instruction?]

/-- **The program of every source text is well formed.** -/
theorem wellFormed_ofSource (text : String) : (ofSource text).WellFormed where
  ends := ⟨_, rfl, Source.halt_notMem_scan _⟩
  cursor_lt := by simp [ofSource, length, Source.decode, Source.decodeBytes]

theorem length_ofSource_le (text : String) :
    3 * (ofSource text).length ≤ text.utf8ByteSize + 3 := by
  have hs := Source.length_scan_le (Text.Utf8.encode text.toList)
  rw [Text.Utf8.length_encode] at hs
  simp only [ofSource, length, Source.decode, Source.decodeBytes, List.size_toArray,
    List.length_append, List.length_singleton]
  omega

theorem lt_length_of_instruction? {p : Program} {line : Nat} {i : Instruction}
    (h : p.instruction? line = some i) : line < p.length := by
  rw [instruction?_eq] at h
  exact (List.getElem?_eq_some_iff.1 h).1

theorem exists_instruction? {p : Program} {line : Nat} (h : line < p.length) :
    ∃ i, p.instruction? line = some i := by
  rw [length_eq] at h
  rw [instruction?_eq]
  exact ⟨_, List.getElem?_eq_getElem h⟩

theorem instruction?_eq_none_iff {p : Program} {line : Nat} :
    p.instruction? line = none ↔ p.length ≤ line := by
  rw [instruction?_eq, List.getElem?_eq_none_iff, length_eq]

namespace WellFormed
variable {p : Program} (hp : p.WellFormed)
include hp

/-- The instruction at the cursor is one of the program. -/
theorem instruction?_cursor : p.instruction? p.cursor = some p.peek := by
  rw [peek, instruction?_eq, List.getElem?_eq_getElem hp.cursor_lt]
  rfl

/-- The last line holds `halt`, and no other line does. -/
theorem instruction?_eq_halt_iff {line : Nat} :
    p.instruction? line = some .halt ↔ line + 1 = p.length := by
  obtain ⟨is, he, hn⟩ := hp.ends
  rw [instruction?_eq, length_eq, he, List.length_append, List.length_singleton]
  constructor
  · intro h
    have hlt := (List.getElem?_eq_some_iff.1 h).1
    rw [List.length_append, List.length_singleton] at hlt
    by_contra hne
    rw [List.getElem?_append_left (by omega)] at h
    exact hn (List.mem_of_getElem? h)
  · intro h
    obtain rfl : line = is.length := by omega
    exact List.getElem?_concat_length

/-- An instruction other than `halt` is not the last one. -/
theorem succ_lt {line : Nat} {i : Instruction} (h : p.instruction? line = some i)
    (hi : i ≠ .halt) : line + 1 < p.length := by
  have hlt := lt_length_of_instruction? h
  by_contra hge
  have hl := hp.instruction?_eq_halt_iff.2 (show line + 1 = p.length by omega)
  rw [h] at hl
  exact hi (Option.some.inj hl)

/-- A line that is not the last one is before the line of the `halt`. -/
theorem exists_halt {line : Nat} (h : line + 1 < p.length) :
    ∃ e, p.instruction? e = some .halt ∧ line < e :=
  ⟨p.length - 1, hp.instruction?_eq_halt_iff.2 (by omega), by omega⟩

theorem advance : p.advance.WellFormed := by
  unfold Program.advance
  split
  · next hlt => exact ⟨hp.ends, hlt⟩
  · exact hp

theorem goto {line : Nat} (h : line < p.length) : { p with cursor := line }.WellFormed :=
  ⟨hp.ends, h⟩

end WellFormed

@[simp] theorem instructions_advance (p : Program) : p.advance.instructions = p.instructions := by
  unfold advance; split <;> rfl

@[simp] theorem instruction?_advance (p : Program) (line : Nat) :
    p.advance.instruction? line = p.instruction? line := by
  rw [instruction?, instructions_advance]
  rfl

theorem goto_of_lt {p : Program} {line : Nat} (h : line < p.length) :
    p.goto line = .ok { p with cursor := line } :=
  if_pos h

/-! ## Where jumps go -/

theorem lastOpening_lt {p : Program} {n mark : Nat} (h : p.lastOpening n = some mark) :
    mark < n := by
  induction n with
  | zero => simp [lastOpening] at h
  | succ n ih =>
    simp only [lastOpening] at h
    split at h
    · cases h; omega
    · have := ih h; omega

theorem loopStart_lt {p : Program} {line mark : Nat} (h : p.loopStart line = some mark) :
    mark < p.length := by
  have := lastOpening_lt h
  omega

/-- The search for a return stops behind one. -/
theorem afterReturn_spec {p : Program} {n line resume : Nat}
    (h : p.afterReturn n line = some resume) :
    ∃ j, line ≤ j ∧ resume = j + 1 ∧ p.instruction? j = some .jumpBack := by
  induction n generalizing line with
  | zero => simp [afterReturn] at h
  | succ n ih =>
    simp only [afterReturn] at h
    split at h
    · next hj => cases h; exact ⟨line, Nat.le_refl line, rfl, hj⟩
    · cases h
    · cases h
    · obtain ⟨j, hle, hr, hj⟩ := ih h
      exact ⟨j, by omega, hr, hj⟩

/-- A marker that skips its loop goes behind a return, which does not directly follow it. -/
theorem loopExit_spec {p : Program} {mark resume : Nat} (h : p.loopExit mark = some resume) :
    ∃ j, mark + 2 ≤ j ∧ resume = j + 1 ∧ p.instruction? j = some .jumpBack := by
  unfold loopExit at h
  split at h
  · cases h
  · cases h
  · exact afterReturn_spec h

theorem WellFormed.loopExit_lt {p : Program} (hp : p.WellFormed) {mark resume : Nat}
    (h : p.loopExit mark = some resume) : resume < p.length := by
  obtain ⟨j, -, rfl, hj⟩ := loopExit_spec h
  exact hp.succ_lt hj (by decide)

end Program

end MooCode
