/-
  Moo-code — what a source text spells.

  * `scan_label`, `scan_noise`: how the scanner takes an instruction and passes over a byte, and
    `tokenize_label`, `tokenize_noise`: the same for a reader of characters.
  * `tokenize_separator`: a character that is in no spelling separates what stands before it from
    what stands after it.
  * `scan_eq_tokenize`: bytes spell what the characters that they fall into spell, and
    `decode_lossy`: bytes that are no text spell what the text made of them spells.
  * `Leftmost cs k ps`: the instructions spelled in the characters `cs` from the position `k` on,
    each with its position.  There is one such row (`exists_leftmost`, `Leftmost.unique`).
  * `decode_leftmost`: a text spells its instructions from left to right.
-/
import Mathlib.Data.List.Basic
import Mathlib.Data.Nat.Find
import MooCode.Proofs.Program
import MooCode.Proofs.Utf8

namespace MooCode.Source

open Instruction (spelled ofBytes?_eq_some_iff)
open Text.Utf8 (encode decodeLossy Pieces lossy)

/-! ## Spelled instructions -/

theorem ofLetters?_eq_some_iff {cs : List Char} {i : Instruction} :
    ofLetters? cs = some i ↔ i ∈ spelled ∧ i.label.toList = cs := by
  have hi : ∀ i ∈ spelled, ofLetters? i.label.toList = some i := by decide
  constructor
  · intro h
    exact ⟨List.mem_of_find?_eq_some h, by simpa using List.find?_some h⟩
  · rintro ⟨hm, rfl⟩
    exact hi i hm

theorem length_label : ∀ i ∈ spelled, i.label.toList.length = 3 := by
  decide

theorem length_encode_label : ∀ i ∈ spelled, (encode i.label.toList).length = 3 := by
  decide

theorem ascii_label : ∀ i ∈ spelled, ∀ b ∈ encode i.label.toList, b.toNat < 0x80 := by
  have h : ∀ i ∈ spelled, (encode i.label.toList).all (fun b => b.toNat < 0x80) = true := by
    decide
  intro i hi b hb
  exact of_decide_eq_true (List.all_eq_true.1 (h i hi) b hb)

theorem replacement_notMem_label : ∀ i ∈ spelled, '\uFFFD' ∉ i.label.toList := by
  decide

/-! ## The scanner step by step -/

theorem scan_label {i : Instruction} (hi : i ∈ spelled) (bs : List UInt8) :
    scan (encode i.label.toList ++ bs) = i :: scan bs := by
  have hb := ofBytes?_eq_some_iff.2 ⟨hi, rfl⟩
  obtain ⟨a, b, c, he⟩ := List.length_eq_three.1 (length_encode_label i hi)
  rw [he] at hb ⊢
  rw [List.cons_append, List.cons_append, List.cons_append, List.nil_append, scan, hb]

theorem scan_noise {b : UInt8} {bs : List UInt8}
    (h : ∀ i ∈ spelled, ¬ encode i.label.toList <+: b :: bs) : scan (b :: bs) = scan bs := by
  rcases bs with _ | ⟨x, _ | ⟨y, bs⟩⟩
  · simp [scan]
  · simp [scan]
  · rw [scan]
    rcases hb : Instruction.ofBytes? [b, x, y] with _ | i
    · rfl
    · obtain ⟨hi, he⟩ := ofBytes?_eq_some_iff.1 hb
      refine absurd ?_ (h i hi)
      rw [he]
      exact ⟨bs, rfl⟩

/-- A byte that is part of a longer character, or of none, is noise. -/
theorem scan_high {hs : List UInt8} (h : ∀ b ∈ hs, 0x80 ≤ b.toNat) (bs : List UInt8) :
    scan (hs ++ bs) = scan bs := by
  induction hs with
  | nil => rfl
  | cons b hs ih =>
    rw [List.forall_mem_cons] at h
    rw [List.cons_append, scan_noise, ih h.2]
    intro i hi hp
    obtain ⟨x, y, z, he⟩ := List.length_eq_three.1 (length_encode_label i hi)
    have hx := ascii_label i hi x (by simp [he])
    rw [he, List.cons_prefix_cons] at hp
    rw [hp.1] at hx
    omega

theorem tokenize_label {i : Instruction} (hi : i ∈ spelled) (cs : List Char) :
    tokenize (i.label.toList ++ cs) = i :: tokenize cs := by
  have hl := ofLetters?_eq_some_iff.2 ⟨hi, rfl⟩
  obtain ⟨a, b, c, he⟩ := List.length_eq_three.1 (length_label i hi)
  rw [he] at hl ⊢
  rw [List.cons_append, List.cons_append, List.cons_append, List.nil_append, tokenize, hl]

theorem tokenize_noise {c : Char} {cs : List Char}
    (h : ∀ i ∈ spelled, ¬ i.label.toList <+: c :: cs) : tokenize (c :: cs) = tokenize cs := by
  rcases cs with _ | ⟨x, _ | ⟨y, cs⟩⟩
  · simp [tokenize]
  · simp [tokenize]
  · rw [tokenize]
    rcases hl : ofLetters? [c, x, y] with _ | i
    · rfl
    · obtain ⟨hi, he⟩ := ofLetters?_eq_some_iff.1 hl
      refine absurd ?_ (h i hi)
      rw [he]
      exact ⟨cs, rfl⟩

/-! ## Separators -/

theorem isPrefix_of_notMem {l cs ds : List Char} {c : Char} (h : l <+: cs ++ c :: ds)
    (hc : c ∉ l) : l <+: cs := by
  obtain hl | ⟨s, rfl⟩ := List.prefix_or_prefix_of_prefix h (List.prefix_append cs (c :: ds))
  · exact hl
  · rw [List.prefix_append_right_inj] at h
    obtain rfl | ⟨t, rfl, -⟩ := List.prefix_cons_iff.1 h
    · simp
    · simp at hc

/-- **A character that is in no spelling separates** what stands before it from what stands after
    it, whatever parts of spellings stand next to it. -/
theorem tokenize_separator {c : Char} (hc : ∀ i ∈ spelled, c ∉ i.label.toList)
    (cs ds : List Char) : tokenize (cs ++ c :: ds) = tokenize cs ++ tokenize ds := by
  induction hn : cs.length using Nat.strong_induction_on generalizing cs with
  | _ n ih =>
    by_cases hi : ∃ i ∈ spelled, i.label.toList <+: cs
    · obtain ⟨i, hi, t, rfl⟩ := hi
      have hlt : t.length < n := by
        rw [List.length_append, length_label i hi] at hn
        omega
      rw [List.append_assoc, tokenize_label hi, tokenize_label hi, ih _ hlt t rfl, List.cons_append]
    · have hnot : ∀ i ∈ spelled, ¬ i.label.toList <+: cs ++ c :: ds := by
        intro i hm hp
        exact hi ⟨i, hm, isPrefix_of_notMem hp (hc i hm)⟩
      rcases cs with _ | ⟨x, t⟩
      · rw [List.nil_append, tokenize_noise hnot]
        simp [tokenize]
      · rw [List.cons_append] at hnot ⊢
        rw [tokenize_noise hnot, tokenize_noise fun i hm hp => hi ⟨i, hm, hp⟩,
          ih _ (by simp [← hn]) t rfl]

/-! ## Bytes and characters -/

/-- **The scanner finds among the bytes what a reader of the characters finds.** -/
theorem scan_eq_tokenize {bs : List UInt8} {ps : List (Option Char)} (h : Pieces bs ps) :
    scan bs = tokenize (lossy ps) := by
  induction hn : ps.length using Nat.strong_induction_on generalizing bs ps with
  | _ n ih =>
    by_cases hi : ∃ i ∈ spelled, i.label.toList <+: lossy ps
    · obtain ⟨i, hi, cs, hcs⟩ := hi
      obtain ⟨ps, rfl, rfl⟩ := Text.Utf8.lossy_eq_append (replacement_notMem_label i hi) hcs.symm
      obtain ⟨bs, rfl, hp⟩ := h.of_map_some
      have hlt : ps.length < n := by
        rw [List.length_append, List.length_map, length_label i hi] at hn
        omega
      rw [scan_label hi, ← hcs, tokenize_label hi, ih _ hlt hp rfl]
    · have hnot : ∀ i ∈ spelled, ¬ i.label.toList <+: lossy ps := by
        intro i hm hp
        exact hi ⟨i, hm, hp⟩
      obtain ⟨rfl, rfl⟩ | ⟨c, bs, ps, rfl, rfl, hp⟩ | ⟨piece, bs, ps, rfl, rfl, hb, hp⟩ := h.cases
      · simp [scan, lossy, tokenize]
      · have ht : tokenize (lossy (some c :: ps)) = tokenize (lossy ps) := tokenize_noise hnot
        rw [ht, ← ih _ (by simp [← hn]) hp rfl]
        by_cases hc : c.toNat < 0x80
        · rw [Text.Utf8.encodeChar_ascii hc] at h ⊢
          refine scan_noise fun i hm hl => ?_
          exact hnot i hm (h.isPrefix_lossy hl)
        · exact scan_high (Text.Utf8.high_encodeChar (by omega)) bs
      · have ht : tokenize (lossy (none :: ps)) = tokenize (lossy ps) := tokenize_noise hnot
        rw [ht, scan_high hb.high, ih _ (by simp [← hn]) hp rfl]

theorem decode_eq_tokenize (text : String) :
    decode text = tokenize text.toList ++ [.halt] := by
  have h := scan_eq_tokenize (Text.Utf8.pieces_encode text.toList)
  rw [Text.Utf8.lossy_map_some] at h
  rw [decode, decodeBytes, h]

theorem decode_separator {c : Char} (hc : ∀ i ∈ spelled, c ∉ i.label.toList) (s t : String) :
    decode (s ++ String.singleton c ++ t) = tokenize s.toList ++ decode t := by
  have h := tokenize_separator hc s.toList t.toList
  rw [decode_eq_tokenize, decode_eq_tokenize, ← List.append_assoc, ← h]
  simp

/-- **Bytes that are no text spell what the text made of them spells.** -/
theorem decode_lossy (bs : List UInt8) : decode (.ofList (decodeLossy bs)) = decodeBytes bs := by
  have h : scan bs = tokenize (decodeLossy bs) := scan_eq_tokenize (Text.Utf8.pieces_decode bs)
  rw [decode_eq_tokenize, String.toList_ofList, decodeBytes, h]

/-! ## Positions -/

/-- The instruction that is spelled in the text from the position `p` on. -/
def spelledAt? (cs : List Char) (p : Nat) : Option Instruction :=
  ofLetters? ((cs.drop p).take 3)

/-- The row `ps` of positions and instructions goes through the text from the position `k` on:
    each time to the least position at which an instruction is spelled, and then past its
    three letters, until none is spelled any more. -/
inductive Leftmost (cs : List Char) : (k : Nat) → (ps : List (Nat × Instruction)) → Prop
  | done {k : Nat} : (∀ p, k ≤ p → spelledAt? cs p = none) → Leftmost cs k []
  | next {k p : Nat} {i : Instruction} {ps : List (Nat × Instruction)} : k ≤ p →
      spelledAt? cs p = some i → (∀ q, k ≤ q → q < p → spelledAt? cs q = none) →
      Leftmost cs (p + 3) ps → Leftmost cs k ((p, i) :: ps)

section
variable {cs : List Char} {p : Nat}

theorem spelledAt?_eq_some_iff {i : Instruction} :
    spelledAt? cs p = some i ↔ i ∈ spelled ∧ i.label.toList <+: cs.drop p := by
  rw [spelledAt?, ofLetters?_eq_some_iff]
  refine and_congr_right fun hi => ?_
  rw [List.prefix_iff_eq_take, length_label i hi]

theorem lt_length_of_spelledAt? {i : Instruction} (h : spelledAt? cs p = some i) :
    p < cs.length := by
  obtain ⟨hi, hp⟩ := spelledAt?_eq_some_iff.1 h
  have hl := hp.length_le
  rw [length_label i hi, List.length_drop] at hl
  omega

theorem tokenize_drop_of_some {i : Instruction} (h : spelledAt? cs p = some i) :
    tokenize (cs.drop p) = i :: tokenize (cs.drop (p + 3)) := by
  obtain ⟨hi, t, ht⟩ := spelledAt?_eq_some_iff.1 h
  rw [← ht, tokenize_label hi, ← List.drop_drop, ← ht, ← length_label i hi, List.drop_left]

theorem tokenize_drop_of_none (h : spelledAt? cs p = none) :
    tokenize (cs.drop p) = tokenize (cs.drop (p + 1)) := by
  rw [← List.drop_drop]
  rcases hd : cs.drop p with _ | ⟨c, t⟩
  · rfl
  · refine tokenize_noise fun i hi hp => ?_
    rw [← hd] at hp
    have hs := spelledAt?_eq_some_iff.2 ⟨hi, hp⟩
    rw [h] at hs
    cases hs

theorem tokenize_drop_of_le {k : Nat} (hk : k ≤ p)
    (h : ∀ q, k ≤ q → q < p → spelledAt? cs q = none) :
    tokenize (cs.drop k) = tokenize (cs.drop p) := by
  induction p, hk using Nat.le_induction with
  | base => rfl
  | succ p hk ih =>
    rw [ih fun q hq hlt => h q hq (by omega), tokenize_drop_of_none (h p hk (by omega))]

end

namespace Leftmost
variable {cs : List Char} {k : Nat}

theorem tokenize_eq {ps : List (Nat × Instruction)} (h : Leftmost cs k ps) :
    tokenize (cs.drop k) = ps.map Prod.snd := by
  induction h with
  | @done k hn =>
    rw [tokenize_drop_of_le (Nat.le_add_right k cs.length) fun q hq _ => hn q hq,
      List.drop_eq_nil_of_le (Nat.le_add_left _ _)]
    simp [tokenize]
  | next hk hp hq _ ih => rw [tokenize_drop_of_le hk hq, tokenize_drop_of_some hp, ih]; rfl

theorem unique {ps qs : List (Nat × Instruction)} (h : Leftmost cs k ps) (h' : Leftmost cs k qs) :
    ps = qs := by
  induction h generalizing qs with
  | done hn =>
    cases h' with
    | done => rfl
    | next hk hp _ _ =>
      rw [hn _ hk] at hp
      cases hp
  | @next k p i ps hk hp hq _ ih =>
    cases h' with
    | done hn =>
      rw [hn p hk] at hp
      cases hp
    | @next _ p' i' qs hk' hp' hq' h' =>
      have heq : p = p' := by
        rcases Nat.lt_trichotomy p p' with hlt | heq | hlt
        · rw [hq' p hk hlt] at hp
          cases hp
        · exact heq
        · rw [hq p' hk' hlt] at hp'
          cases hp'
      subst heq
      rw [hp] at hp'
      cases hp'
      rw [ih h']

end Leftmost

theorem exists_leftmost (cs : List Char) (k : Nat) : ∃ ps, Leftmost cs k ps := by
  induction hn : cs.length - k using Nat.strong_induction_on generalizing k with
  | _ n ih =>
    by_cases h : ∃ p, k ≤ p ∧ (spelledAt? cs p).isSome = true
    · obtain ⟨hk, hs⟩ := Nat.find_spec h
      obtain ⟨i, hi⟩ := Option.isSome_iff_exists.1 hs
      have hlt := lt_length_of_spelledAt? hi
      obtain ⟨ps, hps⟩ := ih (cs.length - (Nat.find h + 3)) (by omega) _ rfl
      refine ⟨_, .next hk hi (fun q hq hlt => ?_) hps⟩
      have hmin := Nat.find_min h hlt
      simpa [hq] using hmin
    · refine ⟨[], .done fun p hp => ?_⟩
      have hno : ¬ (spelledAt? cs p).isSome = true := fun hs => h ⟨p, hp, hs⟩
      simpa using hno

/-- **A text spells its instructions from left to right.**  Though it is read byte by byte, a text
    means what a reader of its characters makes of it, who takes three characters that spell an
    instruction together and passes over any other one.  These are the instructions at the
    leftmost positions: the least one at which an instruction is spelled, then the least one
    after its letters, and so on to the end. -/
theorem decode_leftmost (text : String) :
    decode text = tokenize text.toList ++ [.halt] ∧
    ∃ ps, (∀ qs, Leftmost text.toList 0 qs ↔ qs = ps) ∧
      tokenize text.toList = ps.map Prod.snd := by
  obtain ⟨ps, hps⟩ := exists_leftmost text.toList 0
  refine ⟨decode_eq_tokenize text, ps, fun qs => ⟨fun h => h.unique hps, ?_⟩, hps.tokenize_eq⟩
  rintro rfl
  exact hps

/-- The twelve spellings, in the order of their codes. -/
example : decode "moo mOo moO mOO Moo MOo MoO MOO OOO MMM OOM oom" =
    [.jumpBack, .left, .right, .exec, .character, .decrement, .increment, .mark, .clear, .transfer,
      .printInt, .readInt, .halt] := by
  decide

end MooCode.Source
