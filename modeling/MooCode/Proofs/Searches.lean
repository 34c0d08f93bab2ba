/-
  Moo-code — where jumps go.

  * `Program.loopStart_eq_some_iff`: a return goes to the last marker that opens a loop, in its
    line or before it.
  * `Program.MarkerBlock p first last`: the lines from `first` to `last` hold markers, and neither
    the line before them nor the one after them does.  `Program.exists_markerBlock`: every marker is
    in a block, of which only the first line opens a loop.
  * `Program.loopExit_eq`: a marker that skips its loop goes behind the first return, where
    neither the line after the marker nor any line behind a `halt` counts.  In a well-formed program
    no return is behind a `halt` (`Program.WellFormed.loopExit_eq_some_iff`).
  * `Program.loopStart_eq_none_iff`, `Program.WellFormed.loopExit_eq_none_iff`: each search fails
    only if there is nothing to find.
-/
import Mathlib.Order.Nat
import MooCode.Proofs.Program

namespace MooCode.Program
variable {p : Program}

/-! ## Back to a marker -/

theorem opensLoop_iff {line : Nat} : p.opensLoop line = true ↔
    p.instruction? line = some .mark ∧ (line = 0 ∨ p.instruction? (line - 1) ≠ some .mark) := by
  simp [opensLoop]

theorem lt_length_of_opensLoop {line : Nat} (h : p.opensLoop line = true) : line < p.length :=
  lt_length_of_instruction? (opensLoop_iff.1 h).1

theorem lastOpening_eq_some_iff {n mark : Nat} : p.lastOpening n = some mark ↔
    mark < n ∧ p.opensLoop mark = true ∧ ∀ j, mark < j → j < n → p.opensLoop j = false := by
  induction n with
  | zero => simp [lastOpening]
  | succ n ih =>
    rw [lastOpening]
    cases ho : p.opensLoop n with
    | true =>
      rw [if_pos rfl, Option.some.injEq]
      constructor
      · rintro rfl
        exact ⟨by omega, ho, fun j _ _ => by omega⟩
      · rintro ⟨hlt, -, hj⟩
        by_contra hne
        have hn := hj n (by omega) (by omega)
        rw [ho] at hn
        cases hn
    | false =>
      rw [if_neg Bool.false_ne_true, ih]
      constructor
      · rintro ⟨hlt, hm, hj⟩
        refine ⟨by omega, hm, fun j h₁ h₂ => ?_⟩
        by_cases hjn : j = n
        · exact hjn ▸ ho
        · exact hj j h₁ (by omega)
      · rintro ⟨hlt, hm, hj⟩
        have hne : mark ≠ n := by
          rintro rfl
          rw [hm] at ho
          cases ho
        exact ⟨by omega, hm, fun j h₁ h₂ => hj j h₁ (by omega)⟩

/-- **A return goes to the last marker that opens a loop.** -/
theorem loopStart_eq_some_iff {line mark : Nat} : p.loopStart line = some mark ↔
    mark ≤ line ∧ p.opensLoop mark = true ∧
      ∀ j, mark < j → j ≤ line → p.opensLoop j = false := by
  rw [loopStart, lastOpening_eq_some_iff]
  constructor
  · rintro ⟨hlt, hm, hj⟩
    refine ⟨by omega, hm, fun j h₁ h₂ => ?_⟩
    by_contra ho
    rw [Bool.not_eq_false] at ho
    have hjl := lt_length_of_opensLoop ho
    rw [hj j h₁ (by omega)] at ho
    cases ho
  · rintro ⟨hle, hm, hj⟩
    have hml := lt_length_of_opensLoop hm
    exact ⟨by omega, hm, fun j h₁ h₂ => hj j h₁ (by omega)⟩

theorem lastOpening_eq_none_iff {n : Nat} :
    p.lastOpening n = none ↔ ∀ j < n, p.opensLoop j = false := by
  induction n with
  | zero => simp [lastOpening]
  | succ n ih =>
    rw [lastOpening, Nat.forall_lt_succ_right, ← ih]
    cases p.opensLoop n <;> simp

/-- A block of markers begins with one that opens a loop. -/
theorem exists_opensLoop {line : Nat} (h : p.instruction? line = some .mark) :
    ∃ mark ≤ line, p.opensLoop mark = true ∧
      ∀ j, mark ≤ j → j ≤ line → p.instruction? j = some .mark := by
  induction line with
  | zero =>
    refine ⟨0, Nat.le_refl 0, opensLoop_iff.2 ⟨h, Or.inl rfl⟩, fun j _ hj => ?_⟩
    rwa [Nat.le_zero.1 hj]
  | succ line ih =>
    by_cases hm : p.instruction? line = some .mark
    · obtain ⟨mark, hle, ho, hb⟩ := ih hm
      refine ⟨mark, by omega, ho, fun j h₁ h₂ => ?_⟩
      rcases Nat.le_or_eq_of_le_succ h₂ with hj | rfl
      · exact hb j h₁ hj
      · exact h
    · refine ⟨line + 1, Nat.le_refl _, opensLoop_iff.2 ⟨h, Or.inr hm⟩, fun j h₁ h₂ => ?_⟩
      rwa [Nat.le_antisymm h₂ h₁]

/-- **A return finds no marker only if there is none**, in its line or before it. -/
theorem loopStart_eq_none_iff {line : Nat} :
    p.loopStart line = none ↔ ∀ j ≤ line, p.instruction? j ≠ some .mark := by
  rw [loopStart, lastOpening_eq_none_iff]
  constructor
  · intro h j hj hm
    obtain ⟨mark, hle, ho, -⟩ := exists_opensLoop hm
    have hlt := lt_length_of_opensLoop ho
    rw [h mark (by omega)] at ho
    cases ho
  · intro h j hj
    by_contra ho
    rw [Bool.not_eq_false] at ho
    exact h j (by omega) (opensLoop_iff.1 ho).1

/-! ## Blocks of markers -/

/-- The lines from `first` to `last` are a block of markers, with no marker on either side of it. -/
structure MarkerBlock (p : Program) (first last : Nat) : Prop where
  first_le_last : first ≤ last
  marks : ∀ j, first ≤ j → j ≤ last → p.instruction? j = some .mark
  before : first = 0 ∨ p.instruction? (first - 1) ≠ some .mark
  after : p.instruction? (last + 1) ≠ some .mark

/-- Every marker is in a block. -/
theorem exists_markerBlock {j : Nat} (h : p.instruction? j = some .mark) :
    ∃ first last, p.MarkerBlock first last ∧ first ≤ j ∧ j ≤ last := by
  obtain ⟨first, hle, ho, hb⟩ := exists_opensLoop h
  -- the block goes on to the first line that no marker follows
  have hex : ∃ last, j ≤ last ∧ p.instruction? (last + 1) ≠ some .mark := by
    refine ⟨max j p.length, Nat.le_max_left _ _, fun hm => ?_⟩
    have hlt := lt_length_of_instruction? hm
    omega
  obtain ⟨hj, ha⟩ := Nat.find_spec hex
  refine ⟨first, Nat.find hex, ⟨by omega, fun i h₁ h₂ => ?_, (opensLoop_iff.1 ho).2, ha⟩, hle, hj⟩
  by_cases hi : i ≤ j
  · exact hb i h₁ hi
  · obtain ⟨i, rfl⟩ : ∃ k, i = k + 1 := ⟨i - 1, by omega⟩
    by_contra hm
    exact Nat.find_min hex (by omega : i < Nat.find hex) ⟨by omega, hm⟩

namespace MarkerBlock
variable {first last : Nat} (h : p.MarkerBlock first last)
include h

theorem opensLoop : p.opensLoop first = true :=
  opensLoop_iff.2 ⟨h.marks first (Nat.le_refl _) h.first_le_last, h.before⟩

/-- Only the first marker of a block opens a loop. -/
theorem opensLoop_eq_false {j : Nat} (hf : first < j) (hl : j ≤ last) : p.opensLoop j = false := by
  rw [← Bool.not_eq_true, opensLoop_iff]
  rintro ⟨-, h0 | hm⟩
  · omega
  · exact hm (h.marks (j - 1) (by omega) (by omega))

/-- A return goes to the first line of the block before it, if no other marker is between. -/
theorem loopStart_eq {line : Nat} (hf : first ≤ line)
    (hn : ∀ j, last < j → j ≤ line → p.instruction? j ≠ some .mark) :
    p.loopStart line = some first := by
  refine loopStart_eq_some_iff.2 ⟨hf, h.opensLoop, fun j h₁ h₂ => ?_⟩
  by_cases hj : j ≤ last
  · exact h.opensLoop_eq_false h₁ hj
  · rw [← Bool.not_eq_true, opensLoop_iff]
    rintro ⟨hm, -⟩
    exact hn j (by omega) h₂ hm

end MarkerBlock

/-! ## Behind a return -/

theorem afterReturn_eq {n line j : Nat} (hj : p.instruction? j = some .jumpBack)
    (hle : line ≤ j) (hlt : j < line + n)
    (hb : ∀ l, line ≤ l → l < j →
      ∃ i, p.instruction? l = some i ∧ i ≠ .jumpBack ∧ i ≠ .halt) :
    p.afterReturn n line = some (j + 1) := by
  induction n generalizing line with
  | zero => omega
  | succ n ih =>
    rw [afterReturn]
    by_cases heq : line = j
    · rw [heq, hj]
    · obtain ⟨i, hi, hr, hh⟩ := hb line (Nat.le_refl line) (by omega)
      have hrest : p.afterReturn n (line + 1) = some (j + 1) :=
        ih (by omega) (by omega) fun l h₁ h₂ => hb l (by omega) h₂
      rw [hi]
      cases i with
      | jumpBack => exact absurd rfl hr
      | halt => exact absurd rfl hh
      | _ => exact hrest

/-- **A marker that skips its loop goes behind the first return**, where the line after the
    marker does not count. -/
theorem loopExit_eq {mark j : Nat} (hj : p.instruction? j = some .jumpBack) (hm : mark + 2 ≤ j)
    (hn : p.instruction? (mark + 1) ≠ some .halt)
    (hb : ∀ l, mark + 2 ≤ l → l < j →
      ∃ i, p.instruction? l = some i ∧ i ≠ .jumpBack ∧ i ≠ .halt) :
    p.loopExit mark = some (j + 1) := by
  have hjl := lt_length_of_instruction? hj
  have hr : p.afterReturn (p.length - (mark + 2)) (mark + 2) = some (j + 1) :=
    afterReturn_eq hj hm (by omega) hb
  rw [loopExit]
  split
  · next hh => exact absurd hh hn
  · next hh =>
    have := instruction?_eq_none_iff.1 hh
    omega
  · exact hr

theorem exists_firstReturn {mark j : Nat} (hm : mark + 2 ≤ j)
    (hj : p.instruction? j = some .jumpBack) :
    ∃ j, IsLeast {j | mark + 2 ≤ j ∧ p.instruction? j = some .jumpBack} j :=
  ⟨_, Nat.isLeast_find (p := fun j => mark + 2 ≤ j ∧ p.instruction? j = some .jumpBack) ⟨j, hm, hj⟩⟩

namespace WellFormed
variable (hp : p.WellFormed)
include hp

/-- No `halt` is before the first return, so the search comes to it. -/
theorem loopExit_of_isLeast {mark j : Nat}
    (h : IsLeast {j | mark + 2 ≤ j ∧ p.instruction? j = some .jumpBack} j) :
    p.loopExit mark = some (j + 1) := by
  obtain ⟨⟨hm, hj⟩, hf⟩ := h
  have hlt := lt_length_of_instruction? hj
  have hh : ∀ l, l < j → p.instruction? l ≠ some .halt := by
    intro l hl hh
    have := hp.instruction?_eq_halt_iff.1 hh
    omega
  refine loopExit_eq hj hm (hh _ (by omega)) fun l h₁ h₂ => ?_
  obtain ⟨i, hi⟩ := exists_instruction? (show l < p.length by omega)
  refine ⟨i, hi, ?_, ?_⟩
  · rintro rfl
    have := hf ⟨h₁, hi⟩
    omega
  · rintro rfl
    exact hh l h₂ hi

/-- **A marker that skips its loop goes behind the first return and nowhere else.** -/
theorem loopExit_eq_some_iff {mark resume : Nat} : p.loopExit mark = some resume ↔
    ∃ j, IsLeast {j | mark + 2 ≤ j ∧ p.instruction? j = some .jumpBack} j ∧ resume = j + 1 := by
  constructor
  · intro h
    obtain ⟨i, hm, -, hi⟩ := loopExit_spec h
    obtain ⟨j, hj⟩ := exists_firstReturn hm hi
    rw [hp.loopExit_of_isLeast hj] at h
    exact ⟨j, hj, (Option.some.inj h).symm⟩
  · rintro ⟨j, hj, rfl⟩
    exact hp.loopExit_of_isLeast hj

/-- **A marker finds no return to go behind only if there is none**, where the line after the
    marker does not count. -/
theorem loopExit_eq_none_iff {mark : Nat} :
    p.loopExit mark = none ↔ ∀ j, mark + 2 ≤ j → p.instruction? j ≠ some .jumpBack := by
  constructor
  · intro hn j hm hj
    obtain ⟨first, hf⟩ := exists_firstReturn hm hj
    rw [hp.loopExit_of_isLeast hf] at hn
    cases hn
  · intro h
    rw [Option.eq_none_iff_forall_ne_some]
    intro resume hr
    obtain ⟨j, hm, -, hj⟩ := loopExit_spec hr
    exact h j hm hj

end WellFormed

end MooCode.Program
