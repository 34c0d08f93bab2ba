/-
  Moo-code — loops.

  * `Program.HasLoop p pre k body post`: after the instructions `pre`, the program `p` holds `k`
    markers, the plain instructions `body` and a return.  The two searches agree on it:
    `HasLoop.loopStart_eq` and `HasLoop.loopExit_eq`.
  * `Machine.Follows m lead is o line back`: the run of `m` performs the instructions `is` as far as
    `o` says, and goes back to the line `back`.
  * `Machine.Passes body m texts m'`: performing `body` again and again, each time on a cell that
    is not zero, takes `m` to `m'` and prints `texts`.
  * `Machine.loop_while`: a loop performs its body while the current cell is not zero.
-/
import MooCode.Proofs.Searches
import MooCode.Proofs.Sound
import MooCode.Proofs.Straight

namespace MooCode

namespace Program

/-- After the instructions `pre`, the program holds `k` markers, the plain instructions `body` and
    a return, and it goes on with `post`. -/
structure HasLoop (p : Program) (pre : List Instruction) (k : Nat)
    (body post : List Instruction) : Prop where
  decoded : ∃ text, p.instructions.toList = Source.decode text
  instructions : p.instructions.toList =
    pre ++ List.replicate k .mark ++ body ++ .jumpBack :: post
  opens : 1 ≤ k
  before : pre.getLast? ≠ some .mark
  inner : ∀ i ∈ body, i ≠ .mark ∧ i ≠ .jumpBack ∧ i ≠ .exec
  long : 2 ≤ k + body.length

namespace HasLoop
variable {p : Program} {pre body post : List Instruction} {k : Nat}
  (h : p.HasLoop pre k body post)
include h

theorem congr {q : Program} (hq : q.instructions = p.instructions) :
    q.HasLoop pre k body post := by
  refine ⟨?_, ?_, h.opens, h.before, h.inner, h.long⟩
  · rw [hq]
    exact h.decoded
  · rw [hq]
    exact h.instructions

/-- The program goes on after the return, and `halt` stands only at its end. -/
theorem ends : post ≠ [] ∧ .halt ∉ body := by
  obtain ⟨text, ht⟩ := h.decoded
  have hi := h.instructions
  rw [ht, Source.decode, Source.decodeBytes] at hi
  have hn := Source.halt_notMem_scan (Text.Utf8.encode text.toList)
  obtain rfl | ⟨post, i, rfl⟩ := List.eq_nil_or_concat post
  · have hl := (List.append_inj' hi rfl).2
    simp at hl
  · rw [List.concat_eq_append, ← List.cons_append, ← List.append_assoc] at hi
    have hs := (List.append_inj' hi rfl).1
    refine ⟨by simp, fun hb => hn ?_⟩
    rw [hs]
    simp [hb]

theorem plain : ∀ i ∈ body, i.isPlain = true := by
  intro i hi
  obtain ⟨hm, hj, hx⟩ := h.inner i hi
  refine Instruction.isPlain_iff.2 ⟨hm, hj, hx, ?_⟩
  rintro rfl
  exact h.ends.2 hi

theorem holds : p.Holds pre.length (List.replicate k .mark ++ (body ++ [.jumpBack])) := by
  refine ⟨post, h.ends.1, ?_⟩
  have hi : p.instructions.toList =
      pre ++ (List.replicate k .mark ++ (body ++ [.jumpBack]) ++ post) := by
    rw [h.instructions]
    simp
  rw [hi, List.drop_left]

theorem holds_body : p.Holds (pre.length + k) (body ++ [.jumpBack]) := by
  have hr := h.holds.right
  rwa [List.length_replicate] at hr

theorem holds_rest {done is : List Instruction} (hb : body = done ++ is) :
    p.Holds (pre.length + k + done.length) is := by
  have hd := h.holds_body.left
  rw [hb] at hd
  exact hd.right

theorem instruction?_return : p.instruction? (pre.length + k + body.length) = some .jumpBack :=
  h.holds_body.get (by simp)

theorem exit_lt : pre.length + k + body.length + 1 < p.length :=
  (h.holds_body.right).succ_lt

/-- Neither the body nor the return is a marker. -/
theorem instruction?_ne_mark {d : Nat} (hk : k ≤ d) (hd : d ≤ k + body.length) :
    p.instruction? (pre.length + d) ≠ some .mark := by
  intro hm
  have hlt : d - k < (body ++ [Instruction.jumpBack]).length := by
    rw [List.length_append, List.length_singleton]
    omega
  have hi := h.holds_body.get (List.getElem?_eq_getElem hlt)
  have hd' : pre.length + k + (d - k) = pre.length + d := by omega
  rw [hd', hm, Option.some.injEq] at hi
  have hmem := List.getElem_mem hlt
  rw [← hi] at hmem
  rcases List.mem_append.1 hmem with hb | hb
  · exact (h.inner _ hb).1 rfl
  · cases List.mem_singleton.1 hb

theorem markerBlock : p.MarkerBlock pre.length (pre.length + (k - 1)) where
  first_le_last := Nat.le_add_right _ _
  marks j h₁ h₂ := by
    have hk := h.opens
    obtain ⟨d, rfl⟩ : ∃ d, j = pre.length + d := ⟨j - pre.length, by omega⟩
    refine h.holds.left.get ?_
    rw [List.getElem?_replicate, if_pos (by omega)]
  before := by
    by_cases h0 : pre.length = 0
    · exact Or.inl h0
    · refine Or.inr ?_
      have hlt : pre.length - 1 < pre.length := by omega
      rw [instruction?_eq, h.instructions, List.append_assoc, List.append_assoc,
        List.getElem?_append_left hlt, ← List.getLast?_eq_getElem?]
      exact h.before
  after := by
    have hk := h.opens
    have hn := h.instruction?_ne_mark (Nat.le_refl k) (Nat.le_add_right k _)
    rwa [show pre.length + (k - 1) + 1 = pre.length + k by omega]

/-- **A return goes to the first of the markers.** -/
theorem loopStart_eq : p.loopStart (pre.length + k + body.length) = some pre.length := by
  refine h.markerBlock.loopStart_eq (by omega) fun j h₁ h₂ => ?_
  obtain ⟨d, rfl⟩ : ∃ d, j = pre.length + d := ⟨j - pre.length, by omega⟩
  exact h.instruction?_ne_mark (by omega) (by omega)

/-- **The first of the markers goes behind the return if it skips the loop.** -/
theorem loopExit_eq : p.loopExit pre.length = some (pre.length + k + body.length + 1) := by
  have hlong := h.long
  -- before the return there is neither another one nor a halt
  have hin : ∀ d, d < k + body.length →
      ∃ i, p.instruction? (pre.length + d) = some i ∧ i ≠ .jumpBack ∧ i ≠ .halt := by
    intro d hd
    have hlt : d < (List.replicate k Instruction.mark ++ body).length := by
      rwa [List.length_append, List.length_replicate]
    have hh := h.holds
    rw [← List.append_assoc] at hh
    refine ⟨_, hh.left.get (List.getElem?_eq_getElem hlt), ?_⟩
    rcases List.mem_append.1 (List.getElem_mem hlt) with hm | hm
    · rw [List.eq_of_mem_replicate hm]
      simp
    · have hp := Instruction.isPlain_iff.1 (h.plain _ hm)
      exact ⟨hp.2.1, hp.2.2.2⟩
  refine Program.loopExit_eq h.instruction?_return (by omega) ?_ ?_
  · obtain ⟨i, hi, -, hh⟩ := hin 1 (by omega)
    rw [hi]
    simpa using hh
  · intro l h₁ h₂
    obtain ⟨d, rfl⟩ : ∃ d, l = pre.length + d := ⟨l - pre.length, by omega⟩
    exact hin d (by omega)

end HasLoop

end Program

namespace Machine

/-! ## One pass -/

/-- After `lead` cycles the run of `m` performs the instructions `is`, the first of them in the
    line `line`, as far as `o` says, and then goes back to the line `back`.  If one of them
    fails, the run is given up in its line; if one of them waits, the run waits there. -/
structure Follows (m : Machine) (lead : Nat) (is : List Instruction) (o : Performance)
    (line back : Nat) : Prop where
  count_le : o.count ≤ is.length
  performs : Reaches (lead + o.count) m o.texts (o.machine.atLine (line + o.count))
  returns : o.count = is.length →
    Reaches (lead + is.length + 1) m o.texts (o.machine.atLine back)
  stops : ∀ i, is[o.count]? = some i →
    (∃ m' f, o.machine.perform i 0 = (m', .fail f) ∧
      (o.machine.atLine (line + o.count)).cycle =
        ({ m'.atLine (line + o.count + 1) with status := .idle },
          some (.failed (f.inLine (line + o.count))))) ∨
    ∃ r, i.request? o.machine.tape.here = some r ∧
      (o.machine.atLine (line + o.count)).cycle =
        ({ o.machine.atLine (line + o.count + 1) with status := .waiting r (line + o.count) },
          some (.input r))

theorem Follows.trans {a b : Nat} {m m₁ : Machine} {is : List Instruction} {o : Performance}
    {line back : Nat} (hr : Reaches a m [] m₁) (h : m₁.Follows b is o line back) :
    m.Follows (a + b) is o line back where
  count_le := h.count_le
  performs := by
    rw [Nat.add_assoc]
    exact hr.trans h.performs
  returns hc := by
    rw [Nat.add_assoc, Nat.add_assoc, ← Nat.add_assoc b]
    exact hr.trans (h.returns hc)
  stops := h.stops

theorem marks_reach {m : Machine} (h0 : m.tape.here ≠ 0) {line k : Nat}
    (h : m.program.Holds line (List.replicate k .mark)) :
    Reaches k (m.atLine line) [] (m.atLine (line + k)) := by
  induction k generalizing line with
  | zero => exact .refl _
  | succ k ih =>
    rw [List.replicate_succ] at h
    have hp : (m.atLine (line + 1)).perform .mark line = (m.atLine (line + 1), .next) := if_neg h0
    have hr := ih h.tail
    rw [Nat.add_right_comm, Nat.add_assoc] at hr
    refine .next ?_ hr
    rw [cycle_eq, performed_atLine h (by simp), hp]
    rfl

section
variable {m : Machine} {pre body post : List Instruction} {k : Nat}
  (h : m.program.HasLoop pre k body post)
include h

theorem cycle_skip (h0 : m.tape.here = 0) : (m.atLine pre.length).cycle =
    (m.atLine (pre.length + k + body.length + 1), none) := by
  have hh : m.program.Holds pre.length (.mark :: List.replicate (k - 1) .mark) := by
    have hm := h.holds.left
    rwa [← Nat.succ_pred_eq_of_pos h.opens, List.replicate_succ] at hm
  have hl : (m.atLine (pre.length + 1)).program.HasLoop pre k body post := h.congr rfl
  have hp : (m.atLine (pre.length + 1)).perform .mark pre.length =
      (m.atLine (pre.length + k + body.length + 1), .next) := by
    have hif : (m.atLine (pre.length + 1)).tape.here = 0 := h0
    simp only [perform, hif, if_true, hl.loopExit_eq]
    exact jump_of_lt h.exit_lt
  rw [cycle_eq, performed_atLine hh (by simp), hp]
  rfl

theorem cycle_return : (m.atLine (pre.length + k + body.length)).cycle =
    (m.atLine pre.length, none) := by
  have hl : (m.atLine (pre.length + k + body.length + 1)).program.HasLoop pre k body post :=
    h.congr rfl
  have hp : (m.atLine (pre.length + k + body.length + 1)).perform .jumpBack
      (pre.length + k + body.length) = (m.atLine pre.length, .next) := by
    simp only [perform, hl.loopStart_eq]
    exact jump_of_lt (Program.loopStart_lt hl.loopStart_eq)
  rw [cycle_eq, performed_atLine h.holds_body.right (by simp), hp]
  rfl

/-- From anywhere in the body, the run performs what is left of it and returns to the first
    marker. -/
theorem follows_body {done is : List Instruction} (hb : body = done ++ is) :
    (m.atLine (pre.length + k + done.length)).Follows 0 is (performAll is m)
      (pre.length + k + done.length) pre.length := by
  have hp : ∀ i ∈ is, i.isPlain = true := by
    intro i hi
    refine h.plain i ?_
    rw [hb]
    exact List.mem_append_right done hi
  have hh := h.holds_rest hb
  have hk := performAll_keeps hp m
  have hr := performAll_reaches hp hh
  have hle := performAll_count_le hp m
  refine ⟨hle, by rwa [Nat.zero_add], ?_, ?_⟩
  · intro hc
    rw [hc] at hr
    have hline : pre.length + k + done.length + is.length = pre.length + k + body.length := by
      rw [hb, List.length_append]
      omega
    rw [hline] at hr
    have hback := hr.trans (.single (cycle_return (h.congr hk.instructions)))
    rw [List.append_nil] at hback
    rwa [Nat.zero_add]
  · intro i hi
    have hc := cycle_atLine ((hh.congr hk.instructions).drop hi) (hp i (List.mem_of_getElem? hi))
    obtain ⟨r, hq, hs⟩ | ⟨m', f, hs⟩ := performAll_stops hp hi <;> rw [hs] at hc
    · exact Or.inr ⟨r, hq, hc⟩
    · exact Or.inl ⟨m', f, hs, hc⟩

/-- From the first marker, the run performs the body and returns to the first marker. -/
theorem follows_loop (h0 : m.tape.here ≠ 0) :
    (m.atLine pre.length).Follows k body (performAll body m) (pre.length + k) pre.length :=
  Follows.trans (marks_reach h0 h.holds.left) (follows_body h (List.nil_append body).symm)

/-- A run that waits in the body goes on as if it had not yet come to the instruction that
    waits. -/
theorem body_resumed {done is : List Instruction} {i : Instruction} (hb : body = done ++ i :: is)
    {r : Request} (hq : i.request? m.tape.here = some r) (n : Nat) :
    { m.atLine (pre.length + k + done.length + 1) with
        status := .waiting r (pre.length + k + done.length) }.execute n =
      { m.atLine (pre.length + k + done.length) with status := .running }.execute (n + 1) := by
  have hh := h.holds_rest hb
  have hi : i ≠ .exec := by
    refine (h.inner i ?_).2.2
    rw [hb]
    simp
  have hu := upcoming_atLine (m := { m with status := .running }) hh hi
  have hf := fetched_atLine (m := { m with status := .running }) hh
  have hx := execute_resumed (d := atLine { m with status := .running } _) rfl
    (r := r) (by rw [hu]; exact hq) n
  rw [hf] at hx
  exact hx

end

/-! ## Pass after pass -/

/-- Performing `body` again and again, each time on a cell that is not zero, takes `m` to `m'` and
    prints `texts`. -/
inductive Passes (body : List Instruction) :
    (m : Machine) → (texts : List String) → (m' : Machine) → Prop
  | none (m : Machine) : Passes body m [] m
  | more {m m' : Machine} {texts : List String} : m.tape.here ≠ 0 →
      (performAll body m).count = body.length →
      Passes body (performAll body m).machine texts m' →
      Passes body m ((performAll body m).texts ++ texts) m'

section
variable {m m' : Machine} {texts : List String} {pre body post : List Instruction} {k : Nat}

/-- After any number of passes the program holds the loop as before, and the run is at its first
    marker again. -/
theorem passes_reach (hp : Passes body m texts m') (h : m.program.HasLoop pre k body post) :
    m'.program.HasLoop pre k body post ∧
      ∃ n, Reaches n (m.atLine pre.length) texts (m'.atLine pre.length) := by
  induction hp with
  | none m => exact ⟨h, 0, .refl _⟩
  | @more m m' texts h0 hc _ ih =>
    obtain ⟨h', n, hn⟩ := ih (h.congr (performAll_keeps h.plain m).instructions)
    exact ⟨h', _, ((follows_loop h h0).returns hc).trans hn⟩

/-- Passes that come to a cell that is zero lead behind the loop. -/
theorem passes_exit (hp : Passes body m texts m') (h : m.program.HasLoop pre k body post)
    (h0 : m'.tape.here = 0) : ∃ n, Reaches n (m.atLine pre.length) texts
      (m'.atLine (pre.length + k + body.length + 1)) := by
  obtain ⟨h', n, hn⟩ := passes_reach hp h
  have hx := hn.trans (.single (cycle_skip h' h0))
  rw [List.append_nil] at hx
  exact ⟨n + 1, hx⟩

end

/-- **A loop performs its body while the current cell is not zero.**  At the first marker, a cell
    that is zero takes the cursor behind the return and nothing else happens; otherwise the run
    performs the body and is back at the first marker, unless an instruction of the body fails.  An
    instruction of the body may wait: the run then goes on from it.  So the run makes pass
    after pass, and goes on behind the loop as soon as the current cell is zero. -/
theorem loop_while {m : Machine} {pre body post : List Instruction} {k : Nat}
    (h : m.program.HasLoop pre k body post) (hs : m.status = .running) :
    (m.program.cursor = pre.length → m.tape.here = 0 →
      m.cycle = (m.atLine (pre.length + k + body.length + 1), none)) ∧
    (m.program.cursor = pre.length → m.tape.here ≠ 0 →
      m.Follows k body (performAll body m) (pre.length + k) pre.length) ∧
    (∀ done is, body = done ++ is → m.program.cursor = pre.length + k + done.length →
      m.Follows 0 is (performAll is m) (pre.length + k + done.length) pre.length) ∧
    (∀ done i is r, body = done ++ i :: is → i.request? m.tape.here = some r → ∀ n,
      { m.atLine (pre.length + k + done.length + 1) with
          status := .waiting r (pre.length + k + done.length) }.execute n =
        (m.atLine (pre.length + k + done.length)).execute (n + 1)) ∧
    (m.program.cursor = pre.length → ∀ texts m', Passes body m texts m' →
      (∃ n, Reaches n m texts (m'.atLine pre.length)) ∧
      (m'.tape.here = 0 →
        (∃ n, Reaches n m texts (m'.atLine (pre.length + k + body.length + 1))) ∧
        ∀ o, Finishes m o ↔ ∃ o', Finishes (m'.atLine (pre.length + k + body.length + 1)) o' ∧
          o = { o' with texts := texts ++ o'.texts })) := by
  refine ⟨?_, ?_, ?_, ?_, ?_⟩
  · intro hc h0
    have hx := cycle_skip h h0
    rwa [atLine_cursor hc] at hx
  · intro hc h0
    have hx := follows_loop h h0
    rwa [atLine_cursor hc] at hx
  · intro done is hb hc
    have hx := follows_body h hb
    rwa [atLine_cursor hc] at hx
  · intro done i is r hb hq n
    rw [body_resumed h hb hq n, ← hs]
    rfl
  · intro hc texts m' hp
    obtain ⟨-, n, hn⟩ := passes_reach hp h
    rw [atLine_cursor hc] at hn
    refine ⟨⟨n, hn⟩, fun h0 => ?_⟩
    obtain ⟨n', hx⟩ := passes_exit hp h h0
    rw [atLine_cursor hc] at hx
    exact ⟨⟨n', hx⟩, fun o => hx.finishes_iff hs⟩

/-- A loop with two markers, which prints numbers until it has read a zero. -/
theorem loop_while_reading :
    let m := ((ofTape (.zeros 0)).calls
      [.start "oom MOO MOO OOM oom moo OOM", .enter "5", .enter "0", .execute 1]).1
    let m' := (performAll [.printInt, .readInt] m).machine
    m.program.HasLoop [.readInt] 2 [.printInt, .readInt] [.printInt, .halt] ∧
      m.status = .running ∧ m.program.cursor = 1 ∧ m.tape.here = 5 ∧
      m.Follows 2 [.printInt, .readInt] ⟨m', ["5"], 2⟩ 3 1 ∧
      m'.tape.here = 0 ∧ ∃ n, Reaches n m ["5"] (m'.atLine 6) := by
  intro m m'
  have hl : m.program.HasLoop [.readInt] 2 [.printInt, .readInt] [.printInt, .halt] :=
    ⟨⟨"oom MOO MOO OOM oom moo OOM", rfl⟩, by decide, by decide, by decide, by decide, by decide⟩
  have hs : m.status = .running := by decide
  have h5 : m.tape.here = 5 := by decide
  have h0 : m'.tape.here = 0 := by decide
  have ho : performAll [.printInt, .readInt] m = ⟨m', ["5"], 2⟩ := by
    have ht : (performAll [.printInt, .readInt] m).texts = ["5"] := by decide
    have hc : (performAll [.printInt, .readInt] m).count = 2 := by decide
    rw [← ht, ← hc]
  have hp : Passes [.printInt, .readInt] m ((performAll [.printInt, .readInt] m).texts ++ []) m' :=
    .more (by rw [h5]; decide) (by rw [ho]; rfl) (.none m')
  rw [ho] at hp
  obtain ⟨-, hf, -, -, hx⟩ := loop_while hl hs
  refine ⟨hl, hs, by decide, h5, ?_, h0, ((hx (by decide) _ _ hp).2 h0).1⟩
  rw [← ho]
  exact hf (by decide) (by rw [h5]; decide)

end Machine

end MooCode
