/-
  Moo-code — what the text of a fault tells.

  A message is a headline, then a place and a detail if the fault has them, and a detail can be any
  text: it may itself read like a place, or like another message.

  * `Cause.eq_of_headline_isPrefix`: no headline begins with another one.
  * `Fault.rest_inj`: what follows the headline tells the line and the detail.
  * `Fault.message_unambiguous`: faults with the same message are the same.
-/
import MooCode.Fault
import MooCode.Proofs.Numeral

namespace MooCode

/-! ## Headlines -/

namespace Cause

/-- All causes. -/
def all : List Cause :=
  [invalidCapacity, alreadyRunning, outOfBounds, noMarker, unterminatedMarker, selfReference, overflow,
    illegalCharacter, inputPastEnd, illegalInput, internalError, fileNotFound]

theorem mem_all (c : Cause) : c ∈ all := by
  cases c <;> decide

theorem eq_of_headline_isPrefix {c d : Cause} (h : c.headline.toList <+: d.headline.toList) :
    c = d := by
  have hall : ∀ c ∈ all, ∀ d ∈ all, c.headline.toList <+: d.headline.toList → c = d := by decide
  exact hall c (mem_all c) d (mem_all d) h

/-- A headline can be read off a text that begins with it. -/
theorem headline_append_inj {c d : Cause} {rest rest' : List Char}
    (h : c.headline.toList ++ rest = d.headline.toList ++ rest') : c = d ∧ rest = rest' := by
  have hc : c.headline.toList <+: d.headline.toList ++ rest' := ⟨rest, h⟩
  have hd : d.headline.toList <+: d.headline.toList ++ rest' := List.prefix_append _ _
  have he : c = d := by
    rcases List.prefix_or_prefix_of_prefix hc hd with hp | hp
    · exact eq_of_headline_isPrefix hp
    · exact (eq_of_headline_isPrefix hp).symm
  subst he
  exact ⟨rfl, List.append_cancel_left h⟩

end Cause

namespace Fault

/-! ## Details and places -/

/-- A detail is told by the text that ends the message, where an empty one is none. -/
theorem addendum_inj {f g : Fault} (h : f.addendum = g.addendum) : f.detail = g.detail := by
  unfold addendum at h
  split at h <;> split at h
  · next hf hg => rw [hf, hg]
  · simp at h
  · simp at h
  · exact (String.append_right_inj "; ").1 h

theorem head_addendum {f : Fault} {c : Char} (h : f.addendum.toList.head? = some c) : c = ';' := by
  unfold addendum at h
  split at h
  · simp at h
  · simpa [eq_comm] using h

/-- What follows the headline in the message of a fault. -/
def rest (f : Fault) : List Char :=
  f.place.toList ++ f.addendum.toList

theorem toList_message (f : Fault) : f.message.toList = f.cause.headline.toList ++ f.rest := by
  simp [message, rest]

theorem rest_of_none {f : Fault} (h : f.line = none) : f.rest = f.addendum.toList := by
  simp [rest, place, h]

theorem rest_of_some {f : Fault} {line : Nat} (h : f.line = some line) :
    f.rest = [' ', 'I', 'N', ' '] ++ (Text.Numeral.digits line ++ f.addendum.toList) := by
  simp [rest, place, h, Text.Numeral.text]

/-- No detail begins as a place does. -/
theorem rest_ne {f g : Fault} {line : Nat} (hf : f.line = none) (hg : g.line = some line) :
    f.rest ≠ g.rest := by
  intro h
  rw [rest_of_none hf, rest_of_some hg] at h
  have hh : f.addendum.toList.head? = some ' ' := by
    rw [h]
    rfl
  exact absurd (head_addendum hh) (by decide)

/-- What follows the headline tells the line and the detail. -/
theorem rest_inj {f g : Fault} (h : f.rest = g.rest) : f.line = g.line ∧ f.detail = g.detail := by
  have hd : ∀ (f : Fault) (c : Char), f.addendum.toList.head? = some c → c.isDigit = false := by
    intro f c hc
    rw [head_addendum hc]
    decide
  rcases hf : f.line with _ | m <;> rcases hg : g.line with _ | n
  · rw [rest_of_none hf, rest_of_none hg] at h
    exact ⟨rfl, addendum_inj (String.toList_inj.1 h)⟩
  · exact absurd h (rest_ne hf hg)
  · exact absurd h.symm (rest_ne hg hf)
  · rw [rest_of_some hf, rest_of_some hg] at h
    -- the digits of the line end with the text or before the `;` of a detail
    obtain ⟨rfl, ha⟩ := Text.Numeral.digits_append_inj (hd f) (hd g) (List.append_cancel_left h)
    exact ⟨rfl, addendum_inj (String.toList_inj.1 ha)⟩

/-! ## Messages -/

/-- **A message tells all there is to a fault.**  Two faults with any lines and details, where an
    empty detail is none, have the same message only if they have the same cause, the same line or
    both no line, and the same detail. -/
theorem message_unambiguous (f g : Fault) : f.message = g.message ↔
    f.cause = g.cause ∧ f.line = g.line ∧ f.detail = g.detail := by
  constructor
  · intro h
    have hl : f.cause.headline.toList ++ f.rest = g.cause.headline.toList ++ g.rest := by
      rw [← toList_message, ← toList_message, h]
    obtain ⟨hc, hr⟩ := Cause.headline_append_inj hl
    exact ⟨hc, rest_inj hr⟩
  · rintro ⟨hc, hl, hd⟩
    rw [message, message, place, place, addendum, addendum, hc, hl, hd]

/-- A detail that reads like a place follows the real one. -/
example : message ⟨.overflow, some 7, " IN 5; OVERFLOW"⟩ = "OVERFLOW IN 7;  IN 5; OVERFLOW" := by
  decide

end Fault

end MooCode
