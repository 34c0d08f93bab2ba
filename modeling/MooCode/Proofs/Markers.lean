/-
  Moo-code — markers and their returns.

  * `Program.loopStart_block`: a return goes to the first line of the last block of markers, and
    finds none only if there is no marker.
  * `Program.Scans p line r`: the search for a return from `line` on comes to an end, however many
    lines it looks at.  `WellFormed.scans_iff`: the search behind a marker does.
  * `Program.searches_paired`: a marker that skips its loop goes behind the first return that does
    not directly follow it, and so not past the return that comes back to the marker.
-/
import Mathlib.Data.Nat.SuccPred
import Mathlib.Order.SuccPred.Archimedean
import MooCode.Proofs.Checked
import MooCode.Proofs.Searches

namespace MooCode.Program
variable {p : Program}

/-! ## Back to a block of markers -/

/-- The last marker in the line `line` or before it, if there is one. -/
theorem exists_lastMark {line k : Nat} (hk : k ≤ line) (hm : p.instruction? k = some .mark) :
    ∃ j, IsGreatest {j | j ≤ line ∧ p.instruction? j = some .mark} j :=
  BddAbove.exists_isGreatest_of_nonempty ⟨line, fun _ hj => hj.1⟩ ⟨k, hk, hm⟩

/-- A return goes to the first line of the block that the last marker is in. -/
theorem MarkerBlock.loopStart_of_isGreatest {first last line j : Nat} (h : p.MarkerBlock first last)
    (hj : IsGreatest {j | j ≤ line ∧ p.instruction? j = some .mark} j) (hf : first ≤ j)
    (hl : j ≤ last) : p.loopStart line = some first := by
  refine h.loopStart_eq (hf.trans hj.1.1) fun i hlt hi hm => ?_
  have hle : i ≤ j := hj.2 ⟨hi, hm⟩
  omega

/-- **A return goes to the first line of the last block of markers.** -/
theorem loopStart_eq_some_iff_block {line k : Nat} : p.loopStart line = some k ↔
    ∃ j last, IsGreatest {j | j ≤ line ∧ p.instruction? j = some .mark} j ∧
      p.MarkerBlock k last ∧ k ≤ j ∧ j ≤ last := by
  constructor
  · intro hs
    obtain ⟨hk, ho, -⟩ := loopStart_eq_some_iff.1 hs
    obtain ⟨j, hj⟩ := exists_lastMark hk (opensLoop_iff.1 ho).1
    obtain ⟨first, last, hb, h₁, h₂⟩ := exists_markerBlock hj.1.2
    obtain rfl : first = k := Option.some.inj ((hb.loopStart_of_isGreatest hj h₁ h₂).symm.trans hs)
    exact ⟨j, last, hj, hb, h₁, h₂⟩
  · rintro ⟨j, last, hj, hb, h₁, h₂⟩
    exact hb.loopStart_of_isGreatest hj h₁ h₂

theorem loopStart_eq_some_iff_isGreatest {line k : Nat} : p.loopStart line = some k ↔
    IsGreatest {k | k ≤ line ∧ p.instruction? k = some .mark ∧
      (k = 0 ∨ p.instruction? (k - 1) ≠ some .mark)} k := by
  simp only [← opensLoop_iff]
  rw [loopStart_eq_some_iff]
  constructor
  · rintro ⟨hk, ho, hn⟩
    refine ⟨⟨hk, ho⟩, fun j hj => ?_⟩
    by_contra hlt
    have hf := hn j (by omega) hj.1
    rw [hj.2] at hf
    cases hf
  · rintro ⟨⟨hk, ho⟩, hg⟩
    refine ⟨hk, ho, fun j h₁ h₂ => ?_⟩
    rw [← Bool.not_eq_true]
    intro hj
    have := hg ⟨h₂, hj⟩
    omega

/-- **Where a return goes.**  In any program, the search back from any line finds nothing only if no
    marker is in that line or before it.  Otherwise it finds the first line of the block that
    contains the last such marker: that of the block that the line itself is in, if it is in one,
    and the last line with a marker that does not directly follow another. -/
theorem loopStart_block (p : Program) (line : Nat) :
    (p.loopStart line = none ↔ ∀ j ≤ line, p.instruction? j ≠ some .mark) ∧
    (∀ k, p.loopStart line = some k ↔
      ∃ j last, IsGreatest {j | j ≤ line ∧ p.instruction? j = some .mark} j ∧
        p.MarkerBlock k last ∧ k ≤ j ∧ j ≤ last) ∧
    (∀ first last, p.MarkerBlock first last → first ≤ line → line ≤ last →
      p.loopStart line = some first) ∧
    ∀ k, p.loopStart line = some k ↔
      IsGreatest {k | k ≤ line ∧ p.instruction? k = some .mark ∧
        (k = 0 ∨ p.instruction? (k - 1) ≠ some .mark)} k := by
  refine ⟨loopStart_eq_none_iff, fun k => loopStart_eq_some_iff_block, ?_,
    fun k => loopStart_eq_some_iff_isGreatest⟩
  intro first last hb hf hl
  exact hb.loopStart_eq hf fun j h₁ h₂ => by omega

/-! ## Returns behind a marker -/

/-- The search for a return from `line` on ends with `r`, however many lines it looks at: behind
    the first return, or with nothing where the program ends. -/
inductive Scans (p : Program) : (line : Nat) → (r : Option Nat) → Prop
  | found {line : Nat} : p.instruction? line = some .jumpBack → Scans p line (some (line + 1))
  | halted {line : Nat} : p.instruction? line = some .halt → Scans p line none
  | ended {line : Nat} : p.instruction? line = none → Scans p line none
  | next {line : Nat} {i : Instruction} {r : Option Nat} : p.instruction? line = some i →
      i ≠ .jumpBack → i ≠ .halt → Scans p (line + 1) r → Scans p line r

theorem Scans.unique {line : Nat} {r r' : Option Nat} (h : p.Scans line r) (h' : p.Scans line r') :
    r = r' := by
  induction h with
  | found hi | halted hi | ended hi => cases h' <;> simp_all
  | next hi hr hh _ ih =>
    cases h' with
    | next _ _ _ hs => exact ih hs
    | _ => simp_all

/-- Where as many lines are looked at as the program has left, the search has come to its end. -/
theorem scans_afterReturn {n line : Nat} (hn : p.length ≤ line + n) :
    p.Scans line (p.afterReturn n line) := by
  induction n generalizing line with
  | zero => exact .ended (instruction?_eq_none_iff.2 hn)
  | succ n ih =>
    have hs : p.Scans (line + 1) (p.afterReturn n (line + 1)) := ih (by omega)
    rw [afterReturn]
    rcases hi : p.instruction? line with _ | i
    · exact .ended hi
    · cases i with
      | jumpBack => exact .found hi
      | halt => exact .halted hi
      | _ => exact .next hi (by decide) (by decide) hs

/-- A return goes to a line before its own. -/
theorem loopStart_lt_return {j k : Nat} (hj : p.instruction? j = some .jumpBack)
    (hs : p.loopStart j = some k) : k < j := by
  obtain ⟨hle, ho, -⟩ := loopStart_eq_some_iff.1 hs
  refine Nat.lt_of_le_of_ne hle ?_
  rintro rfl
  have hm := (opensLoop_iff.1 ho).1
  rw [hj] at hm
  cases hm

namespace WellFormed
variable (hp : p.WellFormed)
include hp

/-- Where the program ends with the line after the marker, there is nothing left to look at. -/
theorem loopExit_eq_afterReturn (mark : Nat) :
    p.loopExit mark = p.afterReturn (p.length - (mark + 2)) (mark + 2) := by
  have hend : p.length ≤ mark + 2 → p.afterReturn (p.length - (mark + 2)) (mark + 2) = none := by
    intro hle
    rw [Nat.sub_eq_zero_of_le hle, afterReturn]
  rw [loopExit]
  split
  · next hh =>
    have := hp.instruction?_eq_halt_iff.1 hh
    exact (hend (by omega)).symm
  · next hn =>
    have := instruction?_eq_none_iff.1 hn
    exact (hend (by omega)).symm
  · rfl

/-- **The search behind a marker ends**, and a bound on the lines it looks at changes nothing. -/
theorem scans_iff {mark : Nat} {r : Option Nat} :
    p.Scans (mark + 2) r ↔ p.loopExit mark = r := by
  have hs : p.Scans (mark + 2) (p.loopExit mark) := by
    rw [hp.loopExit_eq_afterReturn]
    exact scans_afterReturn (by omega)
  constructor
  · exact hs.unique
  · rintro rfl
    exact hs

/-- A marker goes at most behind a return that it does not directly precede, and so far only if there
    is no return between. -/
theorem loopExit_le_return {j k : Nat} (hj : p.instruction? j = some .jumpBack) (hk : k + 2 ≤ j) :
    ∃ r, p.loopExit k = some r ∧ r ≤ j + 1 ∧
      (r = j + 1 ↔ ∀ i, k + 2 ≤ i → i < j → p.instruction? i ≠ some .jumpBack) := by
  rcases hr : p.loopExit k with _ | r
  · exact absurd hj (hp.loopExit_eq_none_iff.1 hr j hk)
  · obtain ⟨f, hf, rfl⟩ := hp.loopExit_eq_some_iff.1 hr
    have hle : f ≤ j := hf.2 ⟨hk, hj⟩
    refine ⟨f + 1, rfl, by omega, ?_⟩
    constructor
    · intro he i h₁ h₂ hi
      have := hf.2 ⟨h₁, hi⟩
      omega
    · intro hn
      by_contra hne
      exact hn f hf.1.1 (by omega) hf.1.2

end WellFormed

/-- **The two searches fit together.**  In a well-formed program, such as that of any source text,
    the search behind a line, which may be past the end, comes to an end.  It finds the line after
    the first return, where the next line does not count, and this is a line of the program; or it
    finds nothing, if there is no such return.  No sum on the way is too large for a word if the
    first ones are not.  A return goes back to a line before its own.  The marker there goes at most
    behind this return, unless the two are next to each other, and it goes there if and only if no
    other return is between. -/
theorem searches_paired (hp : p.WellFormed) :
    (∀ mark,
      (∀ r, p.Scans (mark + 2) r ↔ p.loopExit mark = r) ∧
      (∀ r, p.loopExit mark = some r ↔
        ∃ j, IsLeast {j | mark + 2 ≤ j ∧ p.instruction? j = some .jumpBack} j ∧ r = j + 1) ∧
      (p.loopExit mark = none ↔ ∀ j, mark + 2 ≤ j → p.instruction? j ≠ some .jumpBack) ∧
      (∀ r, p.loopExit mark = some r → r < p.length) ∧
      (p.length < wordSize → mark + 2 < wordSize →
        p.loopExit? mark = some (p.loopExit mark))) ∧
    ∀ j k, p.instruction? j = some .jumpBack → p.loopStart j = some k →
      k < j ∧ (k + 2 ≤ j → ∃ r, p.loopExit k = some r ∧ r ≤ j + 1 ∧
        (r = j + 1 ↔ ∀ i, k + 2 ≤ i → i < j → p.instruction? i ≠ some .jumpBack)) := by
  constructor
  · intro mark
    exact ⟨fun r => hp.scans_iff, fun r => hp.loopExit_eq_some_iff, hp.loopExit_eq_none_iff,
      fun r => hp.loopExit_lt, fun hl hm => loopExit?_eq hl hm⟩
  · intro j k hj hs
    exact ⟨loopStart_lt_return hj hs, hp.loopExit_le_return hj⟩

/-- Two returns that go to one marker: the marker goes behind the first of them. -/
theorem searches_paired_two_returns :
    let p := ofSource "MOO MoO moo OOM moo"
    p.WellFormed ∧ p.Scans 2 (some 3) ∧
      p.instruction? 4 = some .jumpBack ∧ p.loopStart 4 = some 0 ∧
      ∃ r, p.loopExit 0 = some r ∧ r ≤ 5 ∧
        (r = 5 ↔ ∀ i, 2 ≤ i → i < 4 → p.instruction? i ≠ some .jumpBack) := by
  intro p
  have hp : p.WellFormed := wellFormed_ofSource _
  have hx : p.loopExit 0 = some 3 := by decide
  have hj : p.instruction? 4 = some .jumpBack := by decide
  have hs : p.loopStart 4 = some 0 := by decide
  obtain ⟨hm, hb⟩ := searches_paired hp
  exact ⟨hp, ((hm 0).1 _).2 hx, hj, hs, (hb 4 0 hj hs).2 (by decide)⟩

end MooCode.Program
