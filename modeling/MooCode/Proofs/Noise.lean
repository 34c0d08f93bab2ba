/-
  Moo-code — spellings and the noise around them.

  * `letters`: the letters that spell instructions, and `IsNoise cs`: there is none of them in `cs`.
    `IsNoise.tokenize_append`: noise before a text is passed over.
  * `spell n rows`: instructions spelled one behind the other, with the noise that goes with them.
    `decode_spell`: such a text is read as these instructions.
  * `decode_split`: a character that is no letter keeps what stands before it apart from what stands
    after it.
-/
import MooCode.Proofs.Spelling

namespace MooCode

theorem Instruction.mem_spelled_iff {i : Instruction} : i ∈ spelled ↔ i ≠ halt := by
  cases i <;> decide

namespace Source

open Instruction (spelled mem_spelled_iff)

/-! ## Noise -/

/-- The letters that spell instructions. -/
def letters : List Char :=
  ['m', 'M', 'o', 'O']

/-- No letter that spells an instruction is in the text. -/
def IsNoise (cs : List Char) : Prop :=
  ∀ c ∈ cs, c ∉ letters

instance (cs : List Char) : Decidable (IsNoise cs) :=
  List.decidableBAll (fun c => c ∉ letters) cs

theorem notMem_label {c : Char} (hc : c ∉ letters) : ∀ i ∈ spelled, c ∉ i.label.toList := by
  have hl : ∀ i ∈ spelled, i.label.toList.all (fun d => decide (d ∈ letters)) = true := by decide
  intro i hi hm
  exact hc (of_decide_eq_true (List.all_eq_true.1 (hl i hi) c hm))

namespace IsNoise
variable {ns : List Char}

theorem append {ms : List Char} (h : IsNoise ns) (h' : IsNoise ms) : IsNoise (ns ++ ms) :=
  List.forall_mem_append.2 ⟨h, h'⟩

/-- Noise before a text is passed over: each of its characters is a separator with nothing before
    it. -/
theorem tokenize_append (h : IsNoise ns) (cs : List Char) : tokenize (ns ++ cs) = tokenize cs := by
  induction ns with
  | nil => rfl
  | cons c ns ih =>
    obtain ⟨hc, hns⟩ := List.forall_mem_cons.1 h
    have hs := tokenize_separator (notMem_label hc) [] (ns ++ cs)
    rw [ih hns] at hs
    simpa [tokenize] using hs

theorem tokenize_eq_nil (h : IsNoise ns) : tokenize ns = [] := by
  have hn := h.tokenize_append []
  rw [List.append_nil] at hn
  simpa [tokenize] using hn

end IsNoise

/-! ## Spelled text -/

/-- The noise `n`, and then each instruction of `rows` spelled, with the noise that follows it. -/
def spell (n : String) : (rows : List (Instruction × String)) → String
  | [] => n
  | (i, n') :: rows => n ++ i.token?.getD "" ++ spell n' rows

theorem token_eq_label : ∀ i ∈ spelled, i.token?.getD "" = i.label := by
  decide

theorem tokenize_spell {n : String} (hn : IsNoise n.toList) {rows : List (Instruction × String)}
    (hr : ∀ r ∈ rows, r.1 ∈ spelled ∧ IsNoise r.2.toList) :
    tokenize (spell n rows).toList = rows.map Prod.fst := by
  induction rows generalizing n with
  | nil => exact hn.tokenize_eq_nil
  | cons r rows ih =>
    obtain ⟨⟨hi, hn'⟩, hrows⟩ := List.forall_mem_cons.1 hr
    rw [spell, token_eq_label r.1 hi, String.toList_append, String.toList_append, List.append_assoc,
      hn.tokenize_append, tokenize_label hi, ih hn' hrows, List.map_cons]

/-- **Decoding undoes spelling through any noise.**  Instructions are spelled one behind the other,
    however their letters run into each other, with any text before, between and after them that
    has none of the four letters.  That text is read as these instructions. -/
theorem decode_spell {n : String} (hn : IsNoise n.toList) {rows : List (Instruction × String)}
    (hr : ∀ r ∈ rows, r.1 ≠ .halt ∧ IsNoise r.2.toList) :
    decode (spell n rows) = rows.map Prod.fst ++ [.halt] := by
  rw [decode_eq_tokenize, tokenize_spell hn]
  intro r hm
  exact ⟨mem_spelled_iff.2 (hr r hm).1, (hr r hm).2⟩

/-- Spellings that run into each other, where `OOO` could also be read one or two letters earlier,
    and noise of more than one byte. -/
theorem decode_spell_overlapping :
    let rows := [(.printInt, ""), (.mark, ""), (.clear, ""), (.printInt, "é, "), (.transfer, "")]
    IsNoise "🐄 ".toList ∧ (∀ r ∈ rows, r.1 ≠ .halt ∧ IsNoise r.2.toList) ∧
      spell "🐄 " rows = "🐄 OOMMOOOOOOOMé, MMM" ∧
      decode "🐄 OOMMOOOOOOOMé, MMM" = [.printInt, .mark, .clear, .printInt, .transfer, .halt] := by
  intro rows
  have hn : IsNoise "🐄 ".toList := by decide
  have hr : ∀ r ∈ rows, r.1 ≠ .halt ∧ IsNoise r.2.toList := by decide
  have ht : spell "🐄 " rows = "🐄 OOMMOOOOOOOMé, MMM" := by decide
  have hd := decode_spell hn hr
  rw [ht] at hd
  exact ⟨hn, hr, ht, hd⟩

/-! ## Separators -/

theorem dropLast_decode (text : String) : (decode text).dropLast = tokenize text.toList := by
  rw [decode_eq_tokenize, List.dropLast_concat]

/-- **A character that is no letter keeps apart what stands on its two sides.**  A text with such a
    character in it is read as what stands before the character, without the `halt`, and then as
    what stands after it.  So another text after it leaves the instructions before it as they are,
    and another text before it those after it, whatever parts of spellings stand next to it. -/
theorem decode_split {c : Char} (hc : c ∉ letters) (s t : String) :
    decode (s ++ String.singleton c ++ t) = (decode s).dropLast ++ decode t ∧
    (decode s).getLast? = some .halt ∧
    (∀ t', (decode s).dropLast <+: decode (s ++ String.singleton c ++ t')) ∧
    ∀ s', decode t <:+ decode (s' ++ String.singleton c ++ t) := by
  have hsplit : ∀ s t, decode (s ++ String.singleton c ++ t) = (decode s).dropLast ++ decode t := by
    intro s t
    rw [dropLast_decode, decode_separator (notMem_label hc)]
  refine ⟨hsplit s t, ?_, fun t' => ?_, fun s' => ?_⟩
  · rw [decode_eq_tokenize, List.getLast?_concat]
  · rw [hsplit]
    exact List.prefix_append _ _
  · rw [hsplit]
    exact List.suffix_append _ _

/-- A character of two bytes between the parts of `moo`, with whole instructions on both sides. -/
theorem decode_split_partial : 'é' ∉ letters ∧
    decode ("OOMmo" ++ String.singleton 'é' ++ "oMoO") = [.printInt, .increment, .halt] ∧
    ∀ t', [.printInt] <+: decode ("OOMmo" ++ String.singleton 'é' ++ t') := by
  have hc : 'é' ∉ letters := by decide
  obtain ⟨hd, -, hp, -⟩ := decode_split hc "OOMmo" "oMoO"
  have hs : (decode "OOMmo").dropLast = [.printInt] := by decide
  have ht : decode "oMoO" = [.increment, .halt] := by decide
  rw [hs] at hd hp
  rw [ht] at hd
  exact ⟨hc, hd, hp⟩

end Source

end MooCode
