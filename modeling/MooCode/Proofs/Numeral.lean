/-
  Moo-code — lines that are integers.

  * `Text.Stripped cs t`: the text `t` is `cs` without the blanks at its two ends.  `stripped_iff`: so
    it is if it has been trimmed, and only then; `Text.trim_append_blanks`: blanks around a text do
    not count, nor does one at its end (`Text.trim_append_blank`).
  * `Text.Numeral.Denotes cs n`: the text `cs` is a decimal numeral of the integer `n`: one or more
    digits, with at most one sign before them.  `integer?_eq_some_iff`: so it is read;
    `denotes_write`: so it is written.  `digits_append_inj`: a number can be read off a text that
    begins with its digits.
  * `Cell.ofDecimal?_eq_some_iff`: a text is the decimal of the cell that holds what it denotes,
    and of none if no cell can hold it.
-/
import Mathlib.Data.List.TakeWhile
import MooCode.Cell
import MooCode.Text.Blank

namespace MooCode

namespace Text

/-! ## Blanks at the two ends -/

/-- The text `t` is what stays of `cs` without the blanks at its two ends. -/
structure Stripped (cs t : List Char) : Prop where
  split : ∃ a b, cs = a ++ t ++ b ∧ (∀ c ∈ a, isBlank c = true) ∧ ∀ c ∈ b, isBlank c = true
  first : ∀ c, t.head? = some c → isBlank c = false
  last : ∀ c, t.getLast? = some c → isBlank c = false

theorem not_blank_head {cs : List Char} {c : Char} (h : (cs.dropWhile isBlank).head? = some c) :
    isBlank c = false := by
  have hn := List.head?_dropWhile_not isBlank cs
  rwa [h] at hn

theorem dropWhile_blank {cs : List Char} (h : ∀ c, cs.head? = some c → isBlank c = false) :
    cs.dropWhile isBlank = cs := by
  cases cs with
  | nil => rfl
  | cons c cs => exact List.dropWhile_cons_of_neg (by simp [h c rfl])

theorem trimEnd_append_blanks {cs bs : List Char} (h : ∀ b ∈ bs, isBlank b = true) :
    trimEnd (cs ++ bs) = trimEnd cs := by
  rw [trimEnd, List.reverse_append, List.dropWhile_append_of_pos (by simpa using h), trimEnd]

theorem stripped_trim (cs : List Char) : Stripped cs (trim cs) := by
  have hs := List.takeWhile_append_dropWhile (p := isBlank) (l := cs)
  -- what is dropped at the end, behind what stays
  have he : trim cs ++ ((cs.dropWhile isBlank).reverse.takeWhile isBlank).reverse =
      cs.dropWhile isBlank := by
    rw [trim, trimEnd, ← List.reverse_append, List.takeWhile_append_dropWhile, List.reverse_reverse]
  refine ⟨⟨cs.takeWhile isBlank, ((cs.dropWhile isBlank).reverse.takeWhile isBlank).reverse,
    ?_, ?_, ?_⟩, ?_, ?_⟩
  · rw [List.append_assoc, he, hs]
  · intro c hc
    exact List.mem_takeWhile_imp hc
  · intro c hc
    exact List.mem_takeWhile_imp (List.mem_reverse.1 hc)
  · intro c hc
    have hd : (cs.dropWhile isBlank).head? = some c := by
      rw [← he, List.head?_append, hc, Option.some_or]
    exact not_blank_head hd
  · intro c hc
    rw [trim, trimEnd, List.getLast?_reverse] at hc
    exact not_blank_head hc

theorem Stripped.trim_eq {cs t : List Char} (h : Stripped cs t) : trim cs = t := by
  obtain ⟨a, b, rfl, ha, hb⟩ := h.split
  rw [trim, List.append_assoc, List.dropWhile_append_of_pos ha]
  rcases t with _ | ⟨c, t⟩
  · have hd : b.dropWhile isBlank = [] := List.dropWhile_eq_nil_iff.2 hb
    rw [List.nil_append, hd]
    rfl
  · have hf : (c :: t ++ b).dropWhile isBlank = c :: t ++ b :=
      dropWhile_blank fun x hx => h.first x hx
    have hl : (c :: t).reverse.dropWhile isBlank = (c :: t).reverse := by
      refine dropWhile_blank ?_
      rw [List.head?_reverse]
      exact h.last
    rw [hf, trimEnd_append_blanks hb, trimEnd, hl, List.reverse_reverse]

/-- **Trimming strips the blanks at the two ends**, which can be done in one way only. -/
theorem stripped_iff {cs t : List Char} : Stripped cs t ↔ t = trim cs := by
  constructor
  · intro h
    exact h.trim_eq.symm
  · rintro rfl
    exact stripped_trim cs

/-- Blanks around a text without blanks are stripped. -/
theorem trim_append_blanks {a t b : List Char} (ha : ∀ c ∈ a, isBlank c = true)
    (ht : ∀ c ∈ t, isBlank c = false) (hb : ∀ c ∈ b, isBlank c = true) :
    trim (a ++ t ++ b) = t :=
  Stripped.trim_eq ⟨⟨a, b, rfl, ha, hb⟩, fun c hc => ht c (List.mem_of_head? hc),
    fun c hc => ht c (List.mem_of_getLast? hc)⟩

theorem trim_append_blank {c : Char} (hc : isBlank c = true) (cs : List Char) :
    trim (cs ++ [c]) = trim cs := by
  have h := stripped_trim cs
  obtain ⟨a, b, hs, ha, hb⟩ := h.split
  refine Stripped.trim_eq ⟨⟨a, b ++ [c], ?_, ha, ?_⟩, h.first, h.last⟩
  · rw [← List.append_assoc, ← hs]
  · rw [List.forall_mem_append]
    exact ⟨hb, by simpa using hc⟩

/-! ## Numerals -/

namespace Numeral

/-- The text is one or more decimal digits. -/
def IsDigits (ds : List Char) : Prop :=
  ds ≠ [] ∧ ∀ d ∈ ds, d.isDigit = true

instance (ds : List Char) : Decidable (IsDigits ds) :=
  decidable_of_iff (ds.isEmpty = false ∧ ds.all Char.isDigit = true) (by simp [IsDigits])

/-- The text `cs` is a decimal numeral of the integer `n`. -/
inductive Denotes : (cs : List Char) → (n : Int) → Prop
  | plain {ds : List Char} : IsDigits ds → Denotes ds (value ds)
  | plus {ds : List Char} : IsDigits ds → Denotes ('+' :: ds) (value ds)
  | minus {ds : List Char} : IsDigits ds → Denotes ('-' :: ds) (-value ds)

theorem natural?_eq_some_iff {ds : List Char} {n : Nat} :
    natural? ds = some n ↔ IsDigits ds ∧ value ds = n := by
  simp [natural?, IsDigits]

/-- No digit is a sign. -/
theorem IsDigits.integer?_eq {ds : List Char} (h : IsDigits ds) :
    integer? ds = some (value ds) := by
  have hn : natural? ds = some (value ds) := natural?_eq_some_iff.2 ⟨h, rfl⟩
  unfold integer?
  split
  · exact absurd (h.2 '+' List.mem_cons_self) (by decide)
  · exact absurd (h.2 '-' List.mem_cons_self) (by decide)
  · rw [hn]
    rfl

/-- **An integer is read from its numerals, and from nothing else.** -/
theorem integer?_eq_some_iff {cs : List Char} {n : Int} :
    integer? cs = some n ↔ Denotes cs n := by
  constructor
  · intro h
    unfold integer? at h
    split at h
    · obtain ⟨k, hk, rfl⟩ := Option.map_eq_some_iff.1 h
      obtain ⟨hd, rfl⟩ := natural?_eq_some_iff.1 hk
      exact .plus hd
    · obtain ⟨k, hk, rfl⟩ := Option.map_eq_some_iff.1 h
      obtain ⟨hd, rfl⟩ := natural?_eq_some_iff.1 hk
      exact .minus hd
    · obtain ⟨k, hk, rfl⟩ := Option.map_eq_some_iff.1 h
      obtain ⟨hd, rfl⟩ := natural?_eq_some_iff.1 hk
      exact .plain hd
  · intro h
    cases h with
    | plain hd => exact hd.integer?_eq
    | plus hd | minus hd =>
      rw [integer?, natural?_eq_some_iff.2 ⟨hd, rfl⟩]
      rfl

/-! ### Numerals that are written -/

theorem isDigits_digits (n : Nat) : IsDigits (digits n) :=
  ⟨Nat.toDigits_ne_nil, fun _ hd => Nat.isDigit_of_mem_toDigits (by decide) (by decide) hd⟩

theorem value_digits (n : Nat) : value (digits n) = n :=
  Nat.ofDigitChars_toDigits (by decide) (by decide)

/-- A number ends where its digits do. -/
theorem takeWhile_digits (n : Nat) {rest : List Char}
    (hr : ∀ c, rest.head? = some c → c.isDigit = false) :
    (digits n ++ rest).takeWhile Char.isDigit = digits n := by
  have hn : rest.takeWhile Char.isDigit = [] := by
    cases rest with
    | nil => rfl
    | cons c rest => exact List.takeWhile_cons_of_neg (by simp [hr c rfl])
  rw [List.takeWhile_append_of_pos (isDigits_digits n).2, hn, List.append_nil]

/-- **A number can be read off a text that begins with it**, if no digit follows. -/
theorem digits_append_inj {m n : Nat} {rest rest' : List Char}
    (hr : ∀ c, rest.head? = some c → c.isDigit = false)
    (hr' : ∀ c, rest'.head? = some c → c.isDigit = false)
    (h : digits m ++ rest = digits n ++ rest') : m = n ∧ rest = rest' := by
  have hd : digits m = digits n := by
    rw [← takeWhile_digits m hr, h, takeWhile_digits n hr']
  have hv : m = n := by
    rw [← value_digits m, hd, value_digits]
  rw [hd] at h
  exact ⟨hv, List.append_cancel_left h⟩

/-- **What is written for an integer is a numeral of it.** -/
theorem denotes_write (n : Int) : Denotes (write n) n := by
  cases n with
  | ofNat n =>
    have h : Denotes (digits n) (value (digits n)) := .plain (isDigits_digits n)
    rwa [value_digits] at h
  | negSucc n =>
    have h : Denotes ('-' :: digits (n + 1)) (-value (digits (n + 1))) :=
      .minus (isDigits_digits (n + 1))
    rwa [value_digits] at h

/-- Neither digits nor signs are blank. -/
theorem Denotes.not_blank {cs : List Char} {n : Int} (h : Denotes cs n) :
    ∀ c ∈ cs, isBlank c = false := by
  have hd : ∀ {ds : List Char}, IsDigits ds → ∀ d ∈ ds, isBlank d = false := by
    intro ds hds d hm
    have hr : 48 ≤ d.toNat ∧ d.toNat ≤ 57 := Char.isDigit_iff_toNat.1 (hds.2 d hm)
    simp only [isBlank, blankRanges, List.any_cons, List.any_nil, Bool.or_false, Bool.or_eq_false_iff,
      decide_eq_false_iff_not]
    omega
  cases h with
  | plain hds => exact hd hds
  | plus hds | minus hds =>
    rw [List.forall_mem_cons]
    exact ⟨by decide, hd hds⟩

end Numeral

end Text

namespace Cell

theorem ofDecimal?_eq_some_iff {cs : List Char} {v : Cell} :
    ofDecimal? cs = some v ↔ Text.Numeral.Denotes cs v.toInt := by
  rw [ofDecimal?, Option.bind_eq_some_iff, ← Text.Numeral.integer?_eq_some_iff]
  constructor
  · rintro ⟨n, hn, hv⟩
    rw [hn, ofInt?_eq_some_iff.1 hv]
  · intro h
    exact ⟨v.toInt, h, ofInt?_eq_some_iff.2 rfl⟩

theorem ofDecimal?_eq_none_iff {cs : List Char} :
    ofDecimal? cs = none ↔ ∀ v : Cell, ¬ Text.Numeral.Denotes cs v.toInt := by
  rw [Option.eq_none_iff_forall_ne_some]
  exact forall_congr' fun v => not_congr ofDecimal?_eq_some_iff

end Cell

end MooCode
