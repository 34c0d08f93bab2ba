/-
  Moo-code — text as bytes.

  * `span_eq_cons_iff`: what it means that a list is cut before one of its elements, and
    `span_of_notMem`: where it is cut before the first of those that are equal.
  * `Utf8.length_encode`: how many bytes a text has.
  * `Utf8.decodeAll?_newline`: well-formed bytes are well formed on both sides of a
    newline, which is never part of another character.
-/
import Mathlib.Data.List.TakeDrop
import Mathlib.Data.List.TakeWhile
import MooCode.Text.Utf8

namespace MooCode.Text

theorem span_eq_cons_iff {α : Type} {p : α → Bool} {xs ys zs : List α} {z : α} :
    xs.span p = (ys, z :: zs) ↔ xs = ys ++ z :: zs ∧ (∀ y ∈ ys, p y = true) ∧ p z = false := by
  rw [List.span_eq_takeWhile_dropWhile]
  constructor
  · intro h
    obtain ⟨rfl, hd⟩ := Prod.mk.inj h
    refine ⟨?_, fun y => List.mem_takeWhile_imp, ?_⟩
    · rw [← hd, List.takeWhile_append_dropWhile]
    · have := List.head_dropWhile_not p (l := xs) (by rw [hd]; exact List.cons_ne_nil z zs)
      simpa [hd] using this
  · rintro ⟨rfl, hy, hz⟩
    rw [List.takeWhile_append_of_pos hy, List.dropWhile_append_of_pos hy]
    simp [hz]

/-- A list is cut before the first place where an element stands. -/
theorem span_of_notMem {α : Type} [DecidableEq α] {xs : List α} {z : α} (h : z ∉ xs)
    (zs : List α) : (xs ++ z :: zs).span (· ≠ z) = (xs, z :: zs) := by
  refine span_eq_cons_iff.2 ⟨rfl, ?_, by simp⟩
  intro x hx
  have hne : x ≠ z := by
    rintro rfl
    exact h hx
  simpa using hne

namespace Utf8

/-! ## Encoding -/

theorem length_encode (text : String) : (encode text.toList).length = text.utf8ByteSize := by
  rw [← String.size_toByteArray, ← String.utf8Encode_toList, List.utf8Encode,
    List.size_toByteArray, encode]

/-! ## Decoding -/

theorem isSome_decodeAll?_iff {bs : List UInt8} :
    (decodeAll? bs).isSome = true ↔ none ∉ decode bs := by
  unfold decodeAll?
  induction decode bs with
  | nil => simp
  | cons c cs ih =>
    cases c with
    | none => simp
    | some c =>
      have hm : none ∈ some c :: cs ↔ none ∈ cs := by simp
      rw [hm, ← ih, List.mapM_cons]
      cases cs.mapM id <;> rfl

/-- A begun character goes on only with bytes that are no character of their own. -/
theorem low_step {p : Option Begun} {b : UInt8} {q : Begun} (h : (step p b).2 = some q) :
    0x80 ≤ q.low := by
  have hs : ∀ q, (start b).2 = some q → 0x80 ≤ q.low := by
    intro q hq
    unfold start at hq
    grind
  unfold step at h
  split at h
  · exact hs q h
  · next p =>
    split at h
    · unfold Begun.extend at h
      grind
    · exact hs q h

theorem decodeFrom_cons (p : Option Begun) (b : UInt8) (bs : List UInt8) :
    decodeFrom p (b :: bs) = (step p b).1 ++ decodeFrom (step p b).2 bs := by
  rw [decodeFrom]

theorem decodeFrom_newline {p : Option Begun} (hp : ∀ q, p = some q → 0x80 ≤ q.low)
    {line rest : List UInt8} (h : none ∉ decodeFrom p (line ++ 0x0A :: rest)) :
    decodeFrom p (line ++ 0x0A :: rest) = decodeFrom p (line ++ [0x0A]) ++ decode rest := by
  induction line generalizing p with
  | nil =>
    rcases p with _ | q
    · rfl
    · have hq : ¬ q.low ≤ 0x0A := by
        intro hle
        exact absurd (UInt8.le_trans (hp q rfl) hle) (by decide)
      simp [decodeFrom_cons, step, hq] at h
  | cons b line ih =>
    simp only [List.cons_append, decodeFrom_cons, List.append_assoc] at h ⊢
    rw [ih (fun q => low_step) fun hm => h (List.mem_append_right _ hm)]

/-- **A newline cuts well-formed bytes into well-formed bytes.** -/
theorem decodeAll?_newline {line rest : List UInt8}
    (h : (decodeAll? (line ++ 0x0A :: rest)).isSome = true) :
    (decodeAll? (line ++ [0x0A])).isSome = true ∧ (decodeAll? rest).isSome = true := by
  simp only [isSome_decodeAll?_iff] at h ⊢
  rw [decode, decodeFrom_newline (p := none) (by simp) h, List.mem_append, not_or] at h
  exact h

end Utf8

end MooCode.Text
