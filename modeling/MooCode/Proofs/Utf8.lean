/-
  Moo-code — characters among bytes.

  * `Pieces bs ps`: the bytes `bs` fall into the pieces `ps`, which are characters and maximal
    ill-formed pieces (`Broken`).  This says what decoding means without the automaton.
  * `Pieces.unique`: bytes fall into pieces in one way only, and `pieces_encode`: those of a text
    into its characters.
  * `lossy ps`: the text of the pieces `ps`, with U+FFFD for each ill-formed one.
  * `Begun.After p seen`: the bytes `seen` have led the automaton to `p`; the bytes that `p` asks
    for are those that a character beginning with `seen` can go on with.
  * `pieces_decode`: the automaton finds the pieces.
-/
import MooCode.Proofs.Text

namespace MooCode.Text.Utf8

open String (utf8EncodeChar)

/-! ## The bytes of a character -/

/-- The bytes of a character, by its size. -/
theorem encodeChar_cases (c : Char) :
    (c.toNat < 0x80 ∧ utf8EncodeChar c = [.ofNat c.toNat]) ∨
    (0x80 ≤ c.toNat ∧ c.toNat < 0x800 ∧
      utf8EncodeChar c = [.ofNat (c.toNat / 64 + 0xC0), .ofNat (c.toNat % 64 + 0x80)]) ∨
    (0x800 ≤ c.toNat ∧ c.toNat < 0x10000 ∧ ¬ (0xD800 ≤ c.toNat ∧ c.toNat < 0xE000) ∧
      utf8EncodeChar c = [.ofNat (c.toNat / 4096 + 0xE0), .ofNat (c.toNat / 64 % 64 + 0x80),
        .ofNat (c.toNat % 64 + 0x80)]) ∨
    (0x10000 ≤ c.toNat ∧ c.toNat < 0x110000 ∧
      utf8EncodeChar c = [.ofNat (c.toNat / 262144 + 0xF0), .ofNat (c.toNat / 4096 % 64 + 0x80),
        .ofNat (c.toNat / 64 % 64 + 0x80), .ofNat (c.toNat % 64 + 0x80)]) := by
  have hv : c.toNat < 0xD800 ∨ (0xDFFF < c.toNat ∧ c.toNat < 0x110000) := c.valid
  have hn : c.val.toNat = c.toNat := rfl
  unfold utf8EncodeChar
  dsimp only
  rw [hn]
  split
  · exact Or.inl ⟨by omega, rfl⟩
  split
  · refine Or.inr (Or.inl ⟨by omega, by omega, ?_⟩)
    rw [Nat.mod_eq_of_lt (a := c.toNat / 64) (by omega)]
  split
  · refine Or.inr (Or.inr (Or.inl ⟨by omega, by omega, by omega, ?_⟩))
    rw [Nat.mod_eq_of_lt (a := c.toNat / 4096) (by omega)]
  · refine Or.inr (Or.inr (Or.inr ⟨by omega, by omega, ?_⟩))
    rw [Nat.mod_eq_of_lt (a := c.toNat / 262144) (by omega)]

theorem toNat_byte {n : Nat} (h : n < 256) : (UInt8.ofNat n).toNat = n := by
  rw [UInt8.toNat_ofNat', Nat.mod_eq_of_lt h]

theorem byte_eq {n : Nat} {b : UInt8} (h : n = b.toNat) : UInt8.ofNat n = b := by
  rw [h, UInt8.ofNat_toNat]

/-- A byte that goes on with a character. -/
def IsContinuation (b : UInt8) : Prop :=
  0x80 ≤ b.toNat ∧ b.toNat ≤ 0xBF

theorem between_iff {low high b : UInt8} :
    low ≤ b ∧ b ≤ high ↔ low.toNat ≤ b.toNat ∧ b.toNat ≤ high.toNat := by
  rw [UInt8.le_iff_toNat_le, UInt8.le_iff_toNat_le]

theorem isContinuation_iff {b : UInt8} : IsContinuation b ↔ 0x80 ≤ b ∧ b ≤ 0xBF :=
  (@between_iff 0x80 0xBF b).symm

theorem isContinuation_byte (n : Nat) : IsContinuation (.ofNat (n % 64 + 0x80)) := by
  rw [IsContinuation, toNat_byte (by omega)]
  omega

/-- A character is its first byte and continuation bytes. -/
theorem encodeChar_eq_cons (c : Char) : ∃ b tail, utf8EncodeChar c = b :: tail ∧
    (∀ x ∈ tail, IsContinuation x) ∧ (0x80 ≤ c.toNat → 0xC2 ≤ b.toNat) := by
  have hc := isContinuation_byte
  rcases encodeChar_cases c with ⟨h, he⟩ | ⟨hl, hu, he⟩ | ⟨hl, hu, -, he⟩ | ⟨hl, hu, he⟩
  · exact ⟨_, _, he, by simp, by omega⟩
  · refine ⟨_, _, he, by simp only [List.forall_mem_cons, hc]; simp, ?_⟩
    rw [toNat_byte (by omega)]
    omega
  · refine ⟨_, _, he, by simp only [List.forall_mem_cons, hc]; simp, ?_⟩
    rw [toNat_byte (by omega)]
    omega
  · refine ⟨_, _, he, by simp only [List.forall_mem_cons, hc]; simp, ?_⟩
    rw [toNat_byte (by omega)]
    omega

theorem encodeChar_ne_nil (c : Char) : utf8EncodeChar c ≠ [] := by
  obtain ⟨b, tail, he, -⟩ := encodeChar_eq_cons c
  simp [he]

theorem encodeChar_ascii {c : Char} (h : c.toNat < 0x80) : utf8EncodeChar c = [.ofNat c.toNat] := by
  rcases encodeChar_cases c with ⟨-, he⟩ | ⟨hl, -⟩ | ⟨hl, -⟩ | ⟨hl, -⟩
  · exact he
  · omega
  · omega
  · omega

theorem high_encodeChar {c : Char} (h : 0x80 ≤ c.toNat) :
    ∀ b ∈ utf8EncodeChar c, 0x80 ≤ b.toNat := by
  obtain ⟨x, tail, he, ht, hx⟩ := encodeChar_eq_cons c
  have hx := hx h
  intro b hb
  rw [he] at hb
  rcases List.mem_cons.1 hb with rfl | hb
  · omega
  · exact (ht b hb).1

theorem toNat_ofNat {n : Nat} (h : n.isValidChar) : (Char.ofNat n).toNat = n := by
  rw [Char.ofNat, dif_pos h]
  rfl

/-- A byte below 0x80 is a character of its own. -/
theorem encodeChar_ofNat {b : UInt8} (h : b.toNat < 0x80) :
    utf8EncodeChar (.ofNat b.toNat) = [b] := by
  have hn : (Char.ofNat b.toNat).toNat = b.toNat := toNat_ofNat (Or.inl (by omega))
  rw [encodeChar_ascii (by omega), hn, UInt8.ofNat_toNat]

/-- Every byte of a character but the first one is a continuation byte. -/
theorem isContinuation_next {c : Char} {seen : List UInt8} {b : UInt8} (hs : seen ≠ [])
    (h : seen ++ [b] <+: utf8EncodeChar c) : IsContinuation b := by
  obtain ⟨y, seen, rfl⟩ := List.exists_cons_of_ne_nil hs
  obtain ⟨x, tail, he, ht, -⟩ := encodeChar_eq_cons c
  rw [he, List.cons_append, List.cons_prefix_cons] at h
  exact ht b (h.2.subset (by simp))

/-- No character begins another one. -/
theorem encodeChar_inj {c d : Char} (h : utf8EncodeChar c <+: utf8EncodeChar d) : c = d := by
  obtain ⟨t, ht⟩ := h
  have hc := ByteArray.utf8DecodeChar?_utf8EncodeChar_append (b := t.toByteArray) (c := c)
  have hd := ByteArray.utf8DecodeChar?_utf8EncodeChar_append (b := ByteArray.empty) (c := d)
  rw [← List.toByteArray_append, ht] at hc
  rw [ByteArray.append_empty] at hd
  exact Option.some.inj (hc.symm.trans hd)

theorem encodeChar_append_inj {c d : Char} {bs bs' : List UInt8}
    (h : utf8EncodeChar c ++ bs = utf8EncodeChar d ++ bs') : c = d ∧ bs = bs' := by
  have hc : utf8EncodeChar c <+: utf8EncodeChar d ++ bs' := ⟨bs, h⟩
  have hcd : c = d := by
    rcases List.prefix_or_prefix_of_prefix hc (List.prefix_append _ _) with hp | hp
    · exact encodeChar_inj hp
    · exact (encodeChar_inj hp).symm
  subst hcd
  exact ⟨rfl, List.append_cancel_left h⟩

/-! ## Pieces -/

/-- The bytes `piece` before the bytes `rest` are a maximal ill-formed piece: no character stands
    here, `piece` is one byte or begins a character, and no character goes on with the next
    byte. -/
structure Broken (piece rest : List UInt8) : Prop where
  ne_nil : piece ≠ []
  ill_formed : ∀ c, ¬ utf8EncodeChar c <+: piece ++ rest
  begins : piece.length = 1 ∨ ∃ c, piece <+: utf8EncodeChar c
  maximal : ∀ b, rest.head? = some b → ∀ c, ¬ piece ++ [b] <+: utf8EncodeChar c

/-- The bytes fall into the pieces: characters, and `none` for a maximal ill-formed piece. -/
inductive Pieces : List UInt8 → List (Option Char) → Prop
  | nil : Pieces [] []
  | char (c : Char) {bs : List UInt8} {ps : List (Option Char)} :
      Pieces bs ps → Pieces (utf8EncodeChar c ++ bs) (some c :: ps)
  | broken {piece bs : List UInt8} {ps : List (Option Char)} :
      Broken piece bs → Pieces bs ps → Pieces (piece ++ bs) (none :: ps)

namespace Broken
variable {piece bs piece' bs' : List UInt8}

/-- The bytes of an ill-formed piece are no characters of their own. -/
theorem high (h : Broken piece bs) : ∀ b ∈ piece, 0x80 ≤ b.toNat := by
  obtain ⟨x, tail, rfl⟩ := List.exists_cons_of_ne_nil h.ne_nil
  have hx : 0x80 ≤ x.toNat := by
    by_contra hlt
    refine h.ill_formed (.ofNat x.toNat) ?_
    rw [encodeChar_ofNat (by omega)]
    simp
  intro b hb
  rcases List.mem_cons.1 hb with rfl | hb
  · exact hx
  · rcases h.begins with hl | ⟨c, hc⟩
    · simp only [List.length_cons, Nat.add_eq_right, List.length_eq_zero_iff] at hl
      simp [hl] at hb
    · obtain ⟨y, t, he, ht, -⟩ := encodeChar_eq_cons c
      rw [he, List.cons_prefix_cons] at hc
      exact (ht b (hc.2.subset hb)).1

theorem le (h : Broken piece bs) (h' : Broken piece' bs') (he : piece ++ bs = piece' ++ bs') :
    piece' <+: piece := by
  rcases List.prefix_or_prefix_of_prefix ⟨bs, he⟩ (List.prefix_append piece' bs') with
    ⟨t, rfl⟩ | hp
  · rcases t with _ | ⟨b, t⟩
    · exact ⟨[], by rw [List.append_nil, List.append_nil]⟩
    · -- the longer piece would go on with the byte after the shorter one
      rw [List.append_assoc, List.append_cancel_left_eq] at he
      rcases h'.begins with hl | ⟨c, hc⟩
      · have hpos := List.length_pos_iff.2 h.ne_nil
        rw [List.length_append, List.length_cons] at hl
        omega
      · refine absurd ?_ (h.maximal b (by rw [he]; rfl) c)
        refine List.IsPrefix.trans ⟨t, ?_⟩ hc
        rw [List.append_assoc, List.singleton_append]
  · exact hp

theorem append_inj (h : Broken piece bs) (h' : Broken piece' bs')
    (he : piece ++ bs = piece' ++ bs') : bs = bs' := by
  have hp := (h.le h' he).eq_of_length_le (h'.le h he.symm).length_le
  rw [hp] at he
  exact List.append_cancel_left he

end Broken

namespace Pieces

theorem cases {bs : List UInt8} {ps : List (Option Char)} (h : Pieces bs ps) :
    (bs = [] ∧ ps = []) ∨
    (∃ c bs' ps', bs = utf8EncodeChar c ++ bs' ∧ ps = some c :: ps' ∧ Pieces bs' ps') ∨
    ∃ piece bs' ps', bs = piece ++ bs' ∧ ps = none :: ps' ∧ Broken piece bs' ∧
      Pieces bs' ps' := by
  cases h with
  | nil => exact Or.inl ⟨rfl, rfl⟩
  | char c h => exact Or.inr (Or.inl ⟨c, _, _, rfl, rfl, h⟩)
  | broken hb h => exact Or.inr (Or.inr ⟨_, _, _, rfl, rfl, hb, h⟩)

/-- **Bytes fall into pieces in one way only.** -/
theorem unique {bs : List UInt8} {ps qs : List (Option Char)} (hp : Pieces bs ps)
    (hq : Pieces bs qs) : ps = qs := by
  induction hp generalizing qs with
  | nil =>
    obtain ⟨-, rfl⟩ | ⟨c, bs, ps, he, -⟩ | ⟨piece, bs, ps, he, -, hb, -⟩ := hq.cases
    · rfl
    · exact absurd (List.append_eq_nil_iff.1 he.symm).1 (encodeChar_ne_nil c)
    · exact absurd (List.append_eq_nil_iff.1 he.symm).1 hb.ne_nil
  | char c _ ih =>
    obtain ⟨he, -⟩ | ⟨d, bs, ps, he, rfl, hd⟩ | ⟨piece, bs, ps, he, -, hb, -⟩ := hq.cases
    · exact absurd (List.append_eq_nil_iff.1 he).1 (encodeChar_ne_nil c)
    · obtain ⟨rfl, rfl⟩ := encodeChar_append_inj he
      rw [ih hd]
    · exact absurd ⟨_, he⟩ (hb.ill_formed c)
  | broken hb _ ih =>
    obtain ⟨he, -⟩ | ⟨d, bs, ps, he, rfl, hd⟩ | ⟨piece, bs, ps, he, rfl, hb', hr⟩ := hq.cases
    · exact absurd (List.append_eq_nil_iff.1 he).1 hb.ne_nil
    · exact absurd ⟨_, he.symm⟩ (hb.ill_formed d)
    · obtain rfl := hb.append_inj hb' he
      rw [ih hr]

/-- A text in front of the bytes is a text in front of the pieces. -/
theorem of_encode {cs : List Char} {bs : List UInt8} {ps : List (Option Char)}
    (h : Pieces (encode cs ++ bs) ps) : ∃ ps', ps = cs.map some ++ ps' ∧ Pieces bs ps' := by
  induction cs generalizing ps with
  | nil => exact ⟨ps, rfl, h⟩
  | cons c cs ih =>
    rw [encode, List.flatMap_cons, List.append_assoc] at h
    obtain ⟨he, -⟩ | ⟨d, bs', ps', he, rfl, hd⟩ | ⟨piece, bs', ps', he, -, hb, -⟩ := h.cases
    · exact absurd (List.append_eq_nil_iff.1 he).1 (encodeChar_ne_nil c)
    · obtain ⟨rfl, rfl⟩ := encodeChar_append_inj he
      obtain ⟨ps, rfl, hp⟩ := ih hd
      exact ⟨ps, rfl, hp⟩
    · exact absurd ⟨_, he⟩ (hb.ill_formed c)

theorem of_map_some {cs : List Char} {bs : List UInt8} {ps : List (Option Char)}
    (h : Pieces bs (cs.map some ++ ps)) : ∃ bs', bs = encode cs ++ bs' ∧ Pieces bs' ps := by
  induction cs generalizing bs with
  | nil => exact ⟨bs, rfl, h⟩
  | cons c cs ih =>
    cases h with
    | char _ h =>
      obtain ⟨bs', rfl, hp⟩ := ih h
      exact ⟨bs', by rw [encode, encode, List.flatMap_cons, List.append_assoc], hp⟩

end Pieces

theorem pieces_encode (cs : List Char) : Pieces (encode cs) (cs.map some) := by
  induction cs with
  | nil => exact .nil
  | cons c cs ih => exact .char c ih

/-! ## The text of pieces -/

/-- The text of the pieces `ps`, with U+FFFD for each ill-formed one. -/
def lossy (ps : List (Option Char)) : List Char :=
  ps.map fun c => c.getD '\uFFFD'

theorem lossy_append (ps qs : List (Option Char)) : lossy (ps ++ qs) = lossy ps ++ lossy qs :=
  List.map_append

theorem lossy_map_some (cs : List Char) : lossy (cs.map some) = cs := by
  simp [lossy, Function.comp_def]

/-- Characters in front of the text of pieces, other than U+FFFD, are pieces. -/
theorem lossy_eq_append {ps : List (Option Char)} {ls cs : List Char} (hl : '\uFFFD' ∉ ls)
    (h : lossy ps = ls ++ cs) : ∃ ps', ps = ls.map some ++ ps' ∧ lossy ps' = cs := by
  induction ls generalizing ps with
  | nil => exact ⟨ps, rfl, h⟩
  | cons l ls ih =>
    rw [List.mem_cons, not_or] at hl
    rcases ps with _ | ⟨_ | c, ps⟩
    · cases h
    · simp only [lossy, List.map_cons, List.cons_append, List.cons.injEq] at h
      exact absurd h.1 hl.1
    · simp only [lossy, List.map_cons, List.cons_append, List.cons.injEq, Option.getD_some] at h
      obtain ⟨ps', rfl, hp⟩ := ih hl.2 h.2
      exact ⟨ps', by rw [h.1]; rfl, hp⟩

theorem Pieces.isPrefix_lossy {cs : List Char} {bs : List UInt8} {ps : List (Option Char)}
    (h : Pieces bs ps) (hc : encode cs <+: bs) : cs <+: lossy ps := by
  obtain ⟨bs, rfl⟩ := hc
  obtain ⟨ps, rfl, -⟩ := h.of_encode
  exact ⟨lossy ps, by rw [lossy_append, lossy_map_some]⟩

/-! ## Begun characters -/

/-- Whatever bytes come next, if each is in the range asked for, they complete the bytes `seen` to
    a character. -/
def Fills (seen : List UInt8) : (owed : Nat) → (low high : UInt8) → (bits : Nat) → Prop
  | 0, low, high, bits => ∀ b, low ≤ b → b ≤ high →
      utf8EncodeChar (.ofNat (bits * 64 + (b.toNat - 0x80))) = seen ++ [b]
  | owed + 1, low, high, bits => ∀ b, low ≤ b → b ≤ high →
      Fills (seen ++ [b]) owed 0x80 0xBF (bits * 64 + (b.toNat - 0x80))

/-- The bytes `seen` have led to the begun character `p`: bytes that `p` asks for complete it, and
    a character that begins with `seen` goes on with a byte that `p` asks for. -/
structure Begun.After (p : Begun) (seen : List UInt8) : Prop where
  ne_nil : seen ≠ []
  range : p.low ≤ p.high
  fills : Fills seen p.owed p.low p.high p.bits
  next : ∀ c b, seen ++ [b] <+: utf8EncodeChar c → p.low ≤ b ∧ b ≤ p.high

theorem Fills.begins {seen : List UInt8} {owed : Nat} {low high : UInt8} {bits : Nat}
    (h : Fills seen owed low high bits) (hr : low ≤ high) :
    ∃ c b, seen ++ [b] <+: utf8EncodeChar c := by
  have hl : low ≤ low := UInt8.le_refl low
  induction owed generalizing seen low high bits with
  | zero => exact ⟨_, low, [], by rw [List.append_nil, h low hl hr]⟩
  | succ owed ih =>
    obtain ⟨c, b, hc⟩ := ih (h low hl hr) (by decide) (by decide)
    exact ⟨c, low, (List.prefix_append _ _).trans hc⟩

namespace Begun.After
variable {p : Begun} {seen : List UInt8} (h : p.After seen)
include h

theorem begins : ∃ c, seen <+: utf8EncodeChar c := by
  obtain ⟨c, b, hc⟩ := h.fills.begins h.range
  exact ⟨c, (List.prefix_append _ _).trans hc⟩

theorem incomplete (d : Char) : ¬ utf8EncodeChar d <+: seen := by
  intro hd
  obtain ⟨c, b, hc⟩ := h.fills.begins h.range
  obtain rfl := encodeChar_inj (hd.trans ((List.prefix_append _ _).trans hc))
  have hle := (hc.trans hd).length_le
  rw [List.length_append, List.length_singleton] at hle
  omega

/-- A begun character that the next byte does not go on with is a maximal ill-formed piece. -/
theorem broken {rest : List UInt8}
    (hr : ∀ b, rest.head? = some b → ¬ (p.low ≤ b ∧ b ≤ p.high)) : Broken seen rest := by
  have hmax : ∀ b, rest.head? = some b → ∀ c, ¬ seen ++ [b] <+: utf8EncodeChar c := by
    intro b hb c hc
    exact hr b hb (h.next c b hc)
  refine ⟨h.ne_nil, ?_, Or.inr h.begins, hmax⟩
  intro d hd
  rcases List.prefix_or_prefix_of_prefix hd (List.prefix_append seen rest) with hs | ⟨t, ht⟩
  · exact h.incomplete d hs
  · rw [← ht, List.prefix_append_right_inj] at hd
    rcases t with _ | ⟨b, t⟩
    · exact h.incomplete d ⟨[], by rw [← ht, List.append_nil, List.append_nil]⟩
    · obtain ⟨u, rfl⟩ := hd
      exact hmax b rfl d ⟨t, by rw [← ht, List.append_assoc, List.singleton_append]⟩

/-- A byte in range completes the character, or leaves it begun. -/
theorem extend_cases {b : UInt8} (hb : p.low ≤ b ∧ b ≤ p.high) :
    (∃ c, p.extend b = ([some c], none) ∧ utf8EncodeChar c = seen ++ [b]) ∨
    ∃ q, p.extend b = ([], some q) ∧ q.After (seen ++ [b]) := by
  have hf := h.fills
  rcases p with ⟨_ | owed, low, high, bits⟩
  · exact Or.inl ⟨_, rfl, hf b hb.1 hb.2⟩
  · refine Or.inr ⟨_, rfl, by simp, show (0x80 : UInt8) ≤ 0xBF by decide, hf b hb.1 hb.2, ?_⟩
    intro c x hc
    exact isContinuation_iff.1 (isContinuation_next (by simp) hc)

end Begun.After

/-! ## The first byte of a piece

The range of the second byte is such that the value is not one of a shorter character, not a
surrogate and not past U+10FFFF, and this is all that it leaves out. -/

theorem after_two {b : UInt8} (hl : 0xC2 ≤ b.toNat) (hu : b.toNat < 0xE0) :
    Begun.After ⟨0, 0x80, 0xBF, b.toNat - 0xC0⟩ [b] := by
  refine ⟨by simp, show (0x80 : UInt8) ≤ 0xBF by decide, ?_, ?_⟩
  · intro x hxl hxu
    obtain ⟨hxl, hxu⟩ := isContinuation_iff.2 ⟨hxl, hxu⟩
    generalize hv : (b.toNat - 0xC0) * 64 + (x.toNat - 0x80) = v
    have hn : (Char.ofNat v).toNat = v := toNat_ofNat (Or.inl (by omega))
    rcases encodeChar_cases (.ofNat v) with ⟨h, -⟩ | ⟨-, -, he⟩ | ⟨h, -⟩ | ⟨h, -⟩
    · omega
    · rw [he, hn, byte_eq (b := b) (by omega), byte_eq (b := x) (by omega)]
      rfl
    · omega
    · omega
  · intro c x hc
    exact isContinuation_iff.1 (isContinuation_next (by simp) hc)

theorem after_three {b low high : UInt8} (hl : 0xE0 ≤ b.toNat) (hu : b.toNat < 0xF0)
    (hr : low ≤ high)
    (h : ∀ x : UInt8, low ≤ x ∧ x ≤ high ↔ IsContinuation x ∧
      0x800 ≤ (b.toNat - 0xE0) * 4096 + (x.toNat - 0x80) * 64 ∧
      ¬ (0xD800 ≤ (b.toNat - 0xE0) * 4096 + (x.toNat - 0x80) * 64 ∧
        (b.toNat - 0xE0) * 4096 + (x.toNat - 0x80) * 64 < 0xE000)) :
    Begun.After ⟨1, low, high, b.toNat - 0xE0⟩ [b] := by
  refine ⟨by simp, hr, ?_, ?_⟩
  · intro x hxl hxu y hyl hyu
    obtain ⟨⟨hxl, hxu⟩, hlow, hsur⟩ := (h x).1 ⟨hxl, hxu⟩
    obtain ⟨hyl, hyu⟩ := isContinuation_iff.2 ⟨hyl, hyu⟩
    generalize hv : ((b.toNat - 0xE0) * 64 + (x.toNat - 0x80)) * 64 + (y.toNat - 0x80) = v
    have hn : (Char.ofNat v).toNat = v := toNat_ofNat (by unfold Nat.isValidChar; omega)
    rcases encodeChar_cases (.ofNat v) with ⟨h, -⟩ | ⟨h, h', -⟩ | ⟨-, -, -, he⟩ | ⟨h, -⟩
    · omega
    · omega
    · rw [he, hn, byte_eq (b := b) (by omega), byte_eq (b := x) (by omega),
        byte_eq (b := y) (by omega)]
      rfl
    · omega
  · intro c x hc
    refine (h x).2 ⟨isContinuation_next (by simp) hc, ?_⟩
    rcases encodeChar_cases c with ⟨h, he⟩ | ⟨h, h', he⟩ | ⟨h, h', hs, he⟩ | ⟨h, h', he⟩ <;>
      simp only [he, List.singleton_append, List.cons_prefix_cons, List.prefix_nil,
        List.nil_prefix, and_true, reduceCtorEq, and_false] at hc
    · obtain ⟨rfl, rfl⟩ := hc
      rw [toNat_byte (by omega)] at hl
      omega
    · obtain ⟨rfl, rfl⟩ := hc
      rw [toNat_byte (by omega), toNat_byte (by omega)]
      omega
    · obtain ⟨rfl, rfl⟩ := hc
      rw [toNat_byte (by omega)] at hu
      omega

theorem after_four {b low high : UInt8} (hl : 0xF0 ≤ b.toNat) (hu : b.toNat < 0xF5)
    (hr : low ≤ high)
    (h : ∀ x : UInt8, low ≤ x ∧ x ≤ high ↔ IsContinuation x ∧
      0x10000 ≤ (b.toNat - 0xF0) * 262144 + (x.toNat - 0x80) * 4096 ∧
      (b.toNat - 0xF0) * 262144 + (x.toNat - 0x80) * 4096 < 0x110000) :
    Begun.After ⟨2, low, high, b.toNat - 0xF0⟩ [b] := by
  refine ⟨by simp, hr, ?_, ?_⟩
  · intro x hxl hxu y hyl hyu z hzl hzu
    obtain ⟨⟨hxl, hxu⟩, hlow, hhigh⟩ := (h x).1 ⟨hxl, hxu⟩
    obtain ⟨hyl, hyu⟩ := isContinuation_iff.2 ⟨hyl, hyu⟩
    obtain ⟨hzl, hzu⟩ := isContinuation_iff.2 ⟨hzl, hzu⟩
    generalize hv : (((b.toNat - 0xF0) * 64 + (x.toNat - 0x80)) * 64 + (y.toNat - 0x80)) * 64 +
      (z.toNat - 0x80) = v
    have hn : (Char.ofNat v).toNat = v := toNat_ofNat (Or.inr (by omega))
    rcases encodeChar_cases (.ofNat v) with ⟨h, -⟩ | ⟨h, h', -⟩ | ⟨h, h', -⟩ | ⟨-, -, he⟩
    · omega
    · omega
    · omega
    · rw [he, hn, byte_eq (b := b) (by omega), byte_eq (b := x) (by omega),
        byte_eq (b := y) (by omega), byte_eq (b := z) (by omega)]
      rfl
  · intro c x hc
    refine (h x).2 ⟨isContinuation_next (by simp) hc, ?_⟩
    rcases encodeChar_cases c with ⟨h, he⟩ | ⟨h, h', he⟩ | ⟨h, h', -, he⟩ | ⟨h, h', he⟩ <;>
      simp only [he, List.singleton_append, List.cons_prefix_cons, List.prefix_nil,
        List.nil_prefix, and_true, reduceCtorEq, and_false] at hc
    · obtain ⟨rfl, rfl⟩ := hc
      rw [toNat_byte (by omega)] at hl
      omega
    · obtain ⟨rfl, rfl⟩ := hc
      rw [toNat_byte (by omega)] at hl
      omega
    · obtain ⟨rfl, rfl⟩ := hc
      rw [toNat_byte (by omega), toNat_byte (by omega)]
      omega

theorem not_prefix_encodeChar {b : UInt8} (hl : 0x80 ≤ b.toNat)
    (hu : b.toNat < 0xC2 ∨ 0xF5 ≤ b.toNat) (c : Char) : ¬ [b] <+: utf8EncodeChar c := by
  intro hc
  rcases encodeChar_cases c with ⟨h, he⟩ | ⟨h, h', he⟩ | ⟨h, h', -, he⟩ | ⟨h, h', he⟩ <;>
    simp only [he, List.cons_prefix_cons, List.nil_prefix, and_true] at hc <;>
    rw [hc, toNat_byte (by omega)] at hl hu <;> omega

/-- The first byte of a piece is a character, begins none, or begins one. -/
theorem start_cases (b : UInt8) :
    (∃ c, start b = ([some c], none) ∧ utf8EncodeChar c = [b]) ∨
    (start b = ([none], none) ∧ ∀ c, ¬ [b] <+: utf8EncodeChar c) ∨
    ∃ p, start b = ([], some p) ∧ p.After [b] := by
  by_cases h₁ : b.toNat < 0x80
  · exact Or.inl ⟨.ofNat b.toNat, by simp only [start, if_pos h₁], encodeChar_ofNat h₁⟩
  by_cases h₂ : b.toNat < 0xC2
  · refine Or.inr (Or.inl ⟨by simp only [start, if_neg h₁, if_pos h₂], ?_⟩)
    exact not_prefix_encodeChar (by omega) (Or.inl h₂)
  refine Or.inr ?_
  simp only [start, if_neg h₁, if_neg h₂]
  split
  · next h => exact Or.inr ⟨_, rfl, after_two (by omega) h⟩
  split
  · next h =>
    refine Or.inr ⟨⟨1, 0xA0, 0xBF, b.toNat - 0xE0⟩, by rw [h], ?_⟩
    refine after_three (by omega) (by omega) (by decide) fun x => ?_
    simp only [between_iff, IsContinuation, UInt8.reduceToNat]
    omega
  split
  · next h =>
    refine Or.inr ⟨⟨1, 0x80, 0x9F, b.toNat - 0xE0⟩, by rw [h], ?_⟩
    refine after_three (by omega) (by omega) (by decide) fun x => ?_
    simp only [between_iff, IsContinuation, UInt8.reduceToNat]
    omega
  split
  · refine Or.inr ⟨_, rfl, after_three (by omega) (by omega) (by decide) fun x => ?_⟩
    simp only [between_iff, IsContinuation, UInt8.reduceToNat]
    omega
  split
  · next h =>
    refine Or.inr ⟨⟨2, 0x90, 0xBF, b.toNat - 0xF0⟩, by rw [h], ?_⟩
    refine after_four (by omega) (by omega) (by decide) fun x => ?_
    simp only [between_iff, IsContinuation, UInt8.reduceToNat]
    omega
  split
  · refine Or.inr ⟨_, rfl, after_four (by omega) (by omega) (by decide) fun x => ?_⟩
    simp only [between_iff, IsContinuation, UInt8.reduceToNat]
    omega
  split
  · next h =>
    refine Or.inr ⟨⟨2, 0x80, 0x8F, b.toNat - 0xF0⟩, by rw [h], ?_⟩
    refine after_four (by omega) (by omega) (by decide) fun x => ?_
    simp only [between_iff, IsContinuation, UInt8.reduceToNat]
    omega
  · exact Or.inl ⟨rfl, not_prefix_encodeChar (by omega) (Or.inr (by omega))⟩

/-! ## The automaton -/

theorem pieces_start {b : UInt8} {bs : List UInt8} (hn : Pieces bs (decodeFrom none bs))
    (hs : ∀ p seen, p.After seen → Pieces (seen ++ bs) (decodeFrom (some p) bs)) :
    Pieces (b :: bs) (decodeFrom none (b :: bs)) := by
  rw [decodeFrom_cons, step]
  obtain ⟨c, he, hc⟩ | ⟨he, hc⟩ | ⟨p, he, hp⟩ := start_cases b <;> rw [he]
  · have h := Pieces.char c hn
    rwa [hc] at h
  · have hb : Broken [b] bs := by
      refine ⟨by simp, ?_, Or.inl rfl, ?_⟩
      · intro c hcb
        obtain ⟨x, tail, hx, -⟩ := encodeChar_eq_cons c
        rw [hx, List.singleton_append, List.cons_prefix_cons] at hcb
        refine hc c ?_
        rw [hx, hcb.1]
        simp
      · intro x _ c hcb
        exact hc c ((List.prefix_append _ _).trans hcb)
    exact .broken hb hn
  · exact hs p [b] hp

theorem pieces_decodeFrom (bs : List UInt8) : Pieces bs (decodeFrom none bs) ∧
    ∀ p seen, p.After seen → Pieces (seen ++ bs) (decodeFrom (some p) bs) := by
  induction bs with
  | nil =>
    refine ⟨.nil, fun p seen hp => ?_⟩
    exact .broken (hp.broken (by simp)) .nil
  | cons b bs ih =>
    have hb := pieces_start (b := b) ih.1 ih.2
    refine ⟨hb, fun p seen hp => ?_⟩
    rw [decodeFrom_cons, step]
    split
    · next hr =>
      obtain ⟨c, he, hc⟩ | ⟨q, he, hq⟩ := hp.extend_cases hr <;> rw [he]
      · have h := Pieces.char c ih.1
        rw [hc, List.append_assoc] at h
        exact h
      · have h := ih.2 q _ hq
        rw [List.append_assoc] at h
        exact h
    · -- the byte is out of range, so it begins the next piece
      next hr =>
      refine .broken (hp.broken fun x hx => ?_) hb
      cases hx
      exact hr

/-- **Decoding finds the characters and the maximal ill-formed pieces.** -/
theorem pieces_decode (bs : List UInt8) : Pieces bs (decode bs) :=
  (pieces_decodeFrom bs).1

theorem decode_encode (cs : List Char) : decode (encode cs) = cs.map some :=
  (pieces_decode (encode cs)).unique (pieces_encode cs)

end MooCode.Text.Utf8
