/-
  Moo-code — the lines of standard input.

  * `Supply.lines bs`: the lines that the bytes `bs` have to give, up to the first time
    that there is none.
  * `Supply.next_of_isSome`: well-formed bytes give a line and leave well-formed bytes,
    until there are none.
-/
import MooCode.Console.Lines
import MooCode.Proofs.Text

namespace MooCode.Console

theorem cutLine_cases (bs : List UInt8) :
    (∃ line rest, bs = line ++ 0x0A :: rest ∧ cutLine bs = (line ++ [0x0A], rest)) ∨
      cutLine bs = (bs, []) := by
  rcases hs : bs.span (· ≠ 0x0A) with ⟨line, _ | ⟨b, rest⟩⟩
  · right
    have hb := List.takeWhile_append_dropWhile (p := (· ≠ 0x0A)) (l := bs)
    rw [List.span_eq_takeWhile_dropWhile] at hs
    obtain ⟨ht, hd⟩ := Prod.mk.inj hs
    rw [ht, hd, List.append_nil] at hb
    simp only [cutLine, List.span_eq_takeWhile_dropWhile, ht, hd, hb]
  · left
    obtain ⟨hb, -, hn⟩ := Text.span_eq_cons_iff.1 hs
    obtain rfl : b = 0x0A := by simpa using hn
    exact ⟨line, rest, hb, by simp only [cutLine, hs]⟩

namespace Supply

/-- The line that the bytes `bytes` are, if they are text. -/
def ofLine (bytes : List UInt8) : Supply :=
  match Text.Utf8.decodeAll? bytes with
  | some cs => .line (String.ofList (stripLineEnd cs))
  | none => .malformed

theorem ofLine_of_isSome {bytes : List UInt8} (h : (Text.Utf8.decodeAll? bytes).isSome = true) :
    ∃ text, ofLine bytes = .line text := by
  obtain ⟨cs, hcs⟩ := Option.isSome_iff_exists.1 h
  exact ⟨_, by rw [ofLine, hcs]⟩

theorem next_of_cut {bs bytes rest : List UInt8} (h : cutLine bs = (bytes, rest))
    (hb : bytes ≠ []) : next bs = (ofLine bytes, rest) := by
  obtain _ | ⟨b, bytes⟩ := bytes
  · exact absurd rfl hb
  · simp only [next, h, ofLine]
    cases Text.Utf8.decodeAll? (b :: bytes) <;> rfl

theorem next_cases (bs : List UInt8) : (bs = [] ∧ next bs = (.nothing, [])) ∨
    (bs ≠ [] ∧ next bs = (ofLine bs, [])) ∨
    ∃ line rest, bs = line ++ 0x0A :: rest ∧ next bs = (ofLine (line ++ [0x0A]), rest) := by
  obtain ⟨line, rest, rfl, hc⟩ | hc := cutLine_cases bs
  · exact Or.inr (Or.inr ⟨line, rest, rfl, next_of_cut hc (by simp)⟩)
  · by_cases hb : bs = []
    · subst hb
      exact Or.inl ⟨rfl, rfl⟩
    · exact Or.inr (Or.inl ⟨hb, next_of_cut hc hb⟩)

theorem length_lt_of_next {bs rest : List UInt8} {text : String}
    (h : next bs = (.line text, rest)) : rest.length < bs.length := by
  obtain ⟨-, hn⟩ | ⟨hb, hn⟩ | ⟨line, rest', rfl, hn⟩ := next_cases bs <;> rw [hn] at h
  · cases h
  · obtain rfl := (Prod.mk.inj h).2
    exact List.length_pos_iff.2 hb
  · obtain rfl := (Prod.mk.inj h).2
    simp only [List.length_append, List.length_cons]
    omega

/-- The lines that the bytes `bs` have to give. -/
def lines (bs : List UInt8) : List String :=
  match _ : next bs with
  | (.line text, rest) => text :: lines rest
  | _ => []
termination_by bs.length
decreasing_by exact length_lt_of_next ‹_›

theorem lines_nil : lines [] = [] := by
  rw [lines]; rfl

theorem lines_of_next {bs rest : List UInt8} {text : String} (h : next bs = (.line text, rest)) :
    lines bs = text :: lines rest := by
  rw [lines]
  split
  · next h' =>
    rw [h] at h'
    cases h'; rfl
  · next h' => exact absurd h (h' _ _)

/-- **Well-formed bytes give line after line**, each of them text, until there are no bytes
    left. -/
theorem next_of_isSome {bs : List UInt8} (h : (Text.Utf8.decodeAll? bs).isSome = true) :
    (bs = [] ∧ next bs = (.nothing, [])) ∨
    ∃ text rest, next bs = (.line text, rest) ∧ (Text.Utf8.decodeAll? rest).isSome = true := by
  obtain hn | ⟨-, hn⟩ | ⟨line, rest, rfl, hn⟩ := next_cases bs
  · exact Or.inl hn
  · obtain ⟨text, ht⟩ := ofLine_of_isSome h
    exact Or.inr ⟨text, [], by rw [hn, ht], rfl⟩
  · obtain ⟨hl, hr⟩ := Text.Utf8.decodeAll?_newline h
    obtain ⟨text, ht⟩ := ofLine_of_isSome hl
    exact Or.inr ⟨text, rest, by rw [hn, ht], hr⟩

end Supply

end MooCode.Console
