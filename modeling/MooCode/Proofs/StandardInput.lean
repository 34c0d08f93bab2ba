/-
  Moo-code — what a program sees of standard input.

  * `Console.withoutReturns cs`: the text `cs` without the carriage returns that stand before a newline
    or at its end, and `Console.isUnterminated cs`: its last line has no newline.
  * `Supply.Gives bs lines`: asking for lines of the bytes `bs`, until there is nothing more, gives
    the lines `lines`.
  * `Supply.next_line`, `Supply.next_last`: what is given for the first line of a text, and for one
    that has no newline.  `induction_lines`: what holds of lines holds of texts.
  * `Supply.gives_lines`, `Supply.queued_lines`, `Supply.length_lines`: the lines of a text are given,
    what they are in the queue, and how many they are.
  * `Console.stdin_seen`: the lines of standard input, entered one by one, are its text, up to
    carriage returns at the end of lines and a newline at the end of the text.
-/
import MooCode.Proofs.Carryover
import MooCode.Proofs.Lines
import MooCode.Proofs.Utf8

namespace MooCode

namespace Text.Utf8

/-! ## Newlines in bytes -/

theorem encode_append (cs ds : List Char) : encode (cs ++ ds) = encode cs ++ encode ds :=
  List.flatMap_append

theorem encode_newline (cs : List Char) : encode ('\n' :: cs) = 0x0A :: encode cs :=
  rfl

/-- Well-formed bytes are decoded to the text that they are the bytes of. -/
theorem decodeAll?_encode (cs : List Char) : decodeAll? (encode cs) = some cs := by
  have hm : cs.mapM some = some (cs.map id) := List.mapM_pure
  rw [decodeAll?, decode_encode, List.mapM_map, Function.id_comp, hm, List.map_id]

/-- A newline is never part of another character. -/
theorem newline_notMem_encode {cs : List Char} (h : '\n' ∉ cs) : 0x0A ∉ encode cs := by
  intro hm
  obtain ⟨c, hc, hb⟩ := List.mem_flatMap.1 hm
  by_cases ha : c.toNat < 0x80
  · rw [encodeChar_ascii ha, List.mem_singleton] at hb
    have hn : c.toNat = 10 := by
      have hn := congrArg UInt8.toNat hb
      rw [toNat_byte (by omega)] at hn
      exact hn.symm
    obtain rfl : c = '\n' := Char.toNat_inj.1 hn
    exact h hc
  · exact absurd (high_encodeChar (by omega) _ hb) (by decide)

end Text.Utf8

namespace Console

open Text.Utf8 (encode)

/-! ## The text that is seen -/

/-- Whether the carriage returns at the front of `cs`, if any, are before a newline or at the end. -/
def returnsEndLine (cs : List Char) : Bool :=
  match cs.dropWhile (· == '\r') with
  | [] => true
  | c :: _ => c == '\n'

/-- The text `cs` without the carriage returns that stand directly before a newline or at its end,
    all of those that stand together. -/
def withoutReturns : (cs : List Char) → List Char
  | [] => []
  | c :: cs =>
    if c = '\r' ∧ returnsEndLine cs = true then withoutReturns cs else c :: withoutReturns cs

/-- Whether the text `cs` has a last line without a newline. -/
def isUnterminated (cs : List Char) : Bool :=
  cs.getLast?.any (· != '\n')

/-! ### One line of it -/

section
variable {l : List Char} (hl : '\n' ∉ l)

theorem stripLineEnd_cons (c : Char) (l : List Char) : stripLineEnd (c :: l) =
    if endsLine c = true ∧ stripLineEnd l = [] then [] else c :: stripLineEnd l := by
  simp only [stripLineEnd, List.reverse_cons, List.dropWhile_append, List.reverse_eq_nil_iff]
  by_cases he : l.reverse.dropWhile endsLine = []
  · by_cases hc : endsLine c = true <;> simp [he, hc]
  · simp [he]

theorem stripLineEnd_newline (l : List Char) : stripLineEnd (l ++ ['\n']) = stripLineEnd l := by
  rw [stripLineEnd, List.reverse_append]
  rfl

theorem stripLineEnd_eq_nil_iff : stripLineEnd l = [] ↔ ∀ c ∈ l, endsLine c = true := by
  simp [stripLineEnd, List.dropWhile_eq_nil_iff]

include hl

/-- In front of a newline or the end, the carriage returns of a line end it if there is nothing
    else in the line. -/
theorem returnsEndLine_append {cs : List Char} (hcs : ∀ c, cs.head? = some c → c = '\n') :
    returnsEndLine (l ++ cs) = true ↔ stripLineEnd l = [] := by
  rw [stripLineEnd_eq_nil_iff]
  induction l with
  | nil =>
    refine iff_of_true ?_ (by simp)
    rcases cs with _ | ⟨c, cs⟩
    · rfl
    · rw [hcs c rfl]
      rfl
  | cons c l ih =>
    rw [List.mem_cons, not_or] at hl
    rw [List.forall_mem_cons, ← ih hl.2]
    have hn : c ≠ '\n' := Ne.symm hl.1
    by_cases hc : c = '\r'
    · subst hc
      simp [returnsEndLine, endsLine]
    · simp [returnsEndLine, endsLine, hc, hn]

theorem withoutReturns_append {cs : List Char} (hcs : ∀ c, cs.head? = some c → c = '\n') :
    withoutReturns (l ++ cs) = stripLineEnd l ++ withoutReturns cs := by
  induction l with
  | nil => rfl
  | cons c l ih =>
    rw [List.mem_cons, not_or] at hl
    have hr := returnsEndLine_append hl.2 hcs
    have he : endsLine c = true ↔ c = '\r' := by
      have hn : c ≠ '\n' := Ne.symm hl.1
      simp [endsLine, hn]
    simp only [List.cons_append, withoutReturns, stripLineEnd_cons, hr, he, ih hl.2]
    split
    · next h => rw [h.2]
    · rfl

/-- A line and its newline are seen without the carriage returns between them. -/
theorem withoutReturns_line (rest : List Char) :
    withoutReturns (l ++ '\n' :: rest) = stripLineEnd l ++ '\n' :: withoutReturns rest := by
  rw [withoutReturns_append hl (by simp), withoutReturns, if_neg (by simp)]

/-- The last line is seen without the carriage returns at its end. -/
theorem withoutReturns_last : withoutReturns l = stripLineEnd l := by
  have h : withoutReturns (l ++ []) = stripLineEnd l ++ withoutReturns [] :=
    withoutReturns_append hl (by simp)
  rwa [List.append_nil, withoutReturns, List.append_nil] at h

end

theorem withoutReturns_eq_self {cs : List Char} (h : '\r' ∉ cs) : withoutReturns cs = cs := by
  induction cs with
  | nil => rfl
  | cons c cs ih =>
    rw [List.mem_cons, not_or] at h
    rw [withoutReturns, if_neg (fun hc => h.1 hc.1.symm), ih h.2]

theorem isUnterminated_line (l rest : List Char) :
    isUnterminated (l ++ '\n' :: rest) = isUnterminated rest := by
  rw [isUnterminated, List.getLast?_append, List.getLast?_cons, isUnterminated]
  cases rest.getLast? <;> rfl

theorem isUnterminated_last {l : List Char} (hl : '\n' ∉ l) (hne : l ≠ []) :
    isUnterminated l = true := by
  have hm := List.getLast_mem hne
  rw [isUnterminated, List.getLast?_eq_some_getLast hne]
  simp only [Option.any_some, bne_iff_ne]
  intro hn
  rw [hn] at hm
  exact hl hm

theorem isUnterminated_eq_false_iff {cs : List Char} :
    isUnterminated cs = false ↔ cs = [] ∨ cs.getLast? = some '\n' := by
  rw [isUnterminated, ← List.getLast?_eq_none_iff]
  cases cs.getLast? <;> simp

/-- What holds of the empty text and of a last line without a newline, and of a text with one more
    line in front of it, holds of all texts. -/
theorem induction_lines {P : List Char → Prop} (nil : P [])
    (last : ∀ l, '\n' ∉ l → l ≠ [] → P l)
    (line : ∀ l rest, '\n' ∉ l → P rest → P (l ++ '\n' :: rest)) (cs : List Char) : P cs := by
  by_cases hn : '\n' ∈ cs
  · obtain ⟨l, rest, hcs, hl⟩ := List.eq_append_cons_of_mem hn
    have hlt : rest.length < cs.length := by
      simp only [hcs, List.length_append, List.length_cons]
      omega
    rw [hcs]
    exact line l rest hl (induction_lines nil last line rest)
  · by_cases he : cs = []
    · rw [he]
      exact nil
    · exact last cs hn he
termination_by cs.length

/-! ## The lines that are given -/

namespace Supply

/-- Asking for lines of the bytes `bs`, until there is nothing more, gives the lines `lines`. -/
inductive Gives : (bs : List UInt8) → (lines : List String) → Prop
  | nothing {bs rest : List UInt8} : next bs = (.nothing, rest) → Gives bs []
  | line {bs rest : List UInt8} {text : String} {lines : List String} :
      next bs = (.line text, rest) → Gives rest lines → Gives bs (text :: lines)

theorem Gives.lines_eq {bs : List UInt8} {ls : List String} (h : Gives bs ls) : lines bs = ls := by
  induction h with
  | nothing hn =>
    rw [lines]
    split
    · next hn' =>
      rw [hn] at hn'
      cases hn'
    · rfl
  | line hn _ ih => rw [lines_of_next hn, ih]

theorem next_line {l : List Char} (hl : '\n' ∉ l) (rest : List Char) :
    next (encode (l ++ '\n' :: rest)) =
      (.line (String.ofList (stripLineEnd l)), encode rest) := by
  have hc : cutLine (encode (l ++ '\n' :: rest)) = (encode (l ++ ['\n']), encode rest) := by
    rw [Text.Utf8.encode_append, Text.Utf8.encode_append, Text.Utf8.encode_newline, cutLine,
      Text.span_of_notMem (Text.Utf8.newline_notMem_encode hl)]
    rfl
  have hne : encode (l ++ ['\n']) ≠ [] := by
    rw [Text.Utf8.encode_append]
    exact List.append_ne_nil_of_right_ne_nil _ (by simp [Text.Utf8.encode_newline])
  rw [next_of_cut hc hne, ofLine, Text.Utf8.decodeAll?_encode]
  simp only [stripLineEnd_newline]

theorem next_last {l : List Char} (hl : '\n' ∉ l) (hne : l ≠ []) :
    next (encode l) = (.line (String.ofList (stripLineEnd l)), []) := by
  have hc : cutLine (encode l) = (encode l, []) := by
    obtain ⟨line, rest, hs, -⟩ | hc := cutLine_cases (encode l)
    · refine absurd ?_ (Text.Utf8.newline_notMem_encode hl)
      rw [hs]
      simp
    · exact hc
  have hb : encode l ≠ [] := by
    obtain ⟨c, l, rfl⟩ := List.exists_cons_of_ne_nil hne
    exact List.append_ne_nil_of_left_ne_nil (Text.Utf8.encodeChar_ne_nil c) _
  rw [next_of_cut hc hb, ofLine, Text.Utf8.decodeAll?_encode]

theorem gives_lines (cs : List Char) : Gives (encode cs) (lines (encode cs)) := by
  have h : ∃ ls, Gives (encode cs) ls := by
    induction cs using induction_lines with
    | nil => exact ⟨[], .nothing rfl⟩
    | last l hl hne => exact ⟨[_], .line (next_last hl hne) (.nothing rfl)⟩
    | line l rest hl ih =>
      obtain ⟨ls, hg⟩ := ih
      exact ⟨_ :: ls, .line (next_line hl rest) hg⟩
  obtain ⟨ls, hg⟩ := h
  rwa [hg.lines_eq]

/-- **The lines of a text, each with a newline after it, are the text**, up to carriage returns at
    the end of lines and a newline at the end of the text. -/
theorem queued_lines (cs : List Char) : queued (lines (encode cs)) =
    withoutReturns cs ++ if isUnterminated cs then ['\n'] else [] := by
  have hc : ∀ (text : String) (ls : List String),
      queued (text :: ls) = text.toList ++ ['\n'] ++ queued ls := fun _ _ => List.flatMap_cons
  induction cs using induction_lines with
  | nil =>
    rw [show encode [] = [] from rfl, lines_nil]
    rfl
  | last l hl hne =>
    rw [lines_of_next (next_last hl hne), lines_nil, hc, withoutReturns_last hl,
      isUnterminated_last hl hne]
    simp [queued]
  | line l rest hl ih =>
    rw [lines_of_next (next_line hl rest), hc, ih, withoutReturns_line hl, isUnterminated_line]
    simp

theorem length_lines (cs : List Char) : (lines (encode cs)).length =
    cs.count '\n' + if isUnterminated cs then 1 else 0 := by
  induction cs using induction_lines with
  | nil =>
    rw [show encode [] = [] from rfl, lines_nil]
    rfl
  | last l hl hne =>
    rw [lines_of_next (next_last hl hne), lines_nil, List.count_eq_zero_of_not_mem hl,
      isUnterminated_last hl hne]
    rfl
  | line l rest hl ih =>
    rw [lines_of_next (next_line hl rest), List.length_cons, ih, List.count_append,
      List.count_eq_zero_of_not_mem hl, List.count_cons_self, isUnterminated_line]
    omega

end Supply

/-- **What a program sees of standard input.**  Let the lines of any text, given as its bytes, be
    asked for until there is nothing more, and be entered one by one.  What this adds to the queue
    is the text without the carriage returns that stand directly before a newline or at the end,
    and with a newline at the end if there is a last line without one.  There are as many lines as
    newlines, and one more for such a last line.  So a text without carriage returns that is empty or
    ends with a newline comes unchanged. -/
theorem stdin_seen (text : String) :
    let cs := text.toList
    let lines := Supply.lines (encode cs)
    Supply.Gives (encode cs) lines ∧
    (∀ m : Machine, (m.calls (lines.map .enter)).1.input =
      m.input ++ (withoutReturns cs ++ if isUnterminated cs then ['\n'] else [])) ∧
    lines.length = cs.count '\n' + (if isUnterminated cs then 1 else 0) ∧
    ('\r' ∉ cs → cs = [] ∨ cs.getLast? = some '\n' →
      ∀ m : Machine, (m.calls (lines.map .enter)).1.input = m.input ++ cs) := by
  intro cs lines
  have hq := Supply.queued_lines cs
  have hm : ∀ m : Machine, (m.calls (lines.map .enter)).1.input = m.input ++ queued lines := by
    intro m
    have hs := m.calls_supply lines false
    rw [Machine.supply, if_neg (by simp), List.append_nil] at hs
    rw [hs]
    rfl
  refine ⟨Supply.gives_lines cs, ?_, Supply.length_lines cs, ?_⟩
  · intro m
    rw [hm, hq]
  · intro hr he m
    rw [hm, hq, withoutReturns_eq_self hr, isUnterminated_eq_false_iff.2 he]
    simp

/-- Carriage returns before newlines, within a line, and as the whole of a last line. -/
theorem stdin_seen_returns :
    let lines := Supply.lines (encode "a\r\r\nb\rc\r\n\r".toList)
    Supply.Gives (encode "a\r\r\nb\rc\r\n\r".toList) lines ∧ lines.length = 3 ∧
      ∀ m : Machine, (m.calls (lines.map .enter)).1.input = m.input ++ "a\nb\rc\n\n".toList := by
  obtain ⟨hg, hq, hn, -⟩ := stdin_seen "a\r\r\nb\rc\r\n\r"
  exact ⟨hg, hn, hq⟩

end Console

end MooCode
