/-
  Moo-code — one program after another.

  * `Machine.Completes m source texts e m'`: the run of `source` on `m`, in slices of some sizes,
    prints `texts` and comes to the final event `e` as `m'`.
  * `Machine.GoesThrough is m texts x`, `Machine.StopsWithin is m o`: where a run leads whose
    program begins with the instructions `is`, whatever comes after them.  `goesThrough_or`: it
    goes through plain instructions or stops at one that waits or fails.
  * `Machine.completes_append`: if there is no jump in the first of two source texts, running them
    one after the other is running them as one.
-/
import MooCode.Proofs.Relocation
import MooCode.Proofs.Schedules
import MooCode.Proofs.Spelling

namespace MooCode

/-- The program of the instructions `is` with the cursor in the line `line`. -/
def Program.ofList (is : List Instruction) (line : Nat) : Program :=
  ⟨is.toArray, line⟩

namespace Machine

/-! ## Where runs lead -/

/-- A run comes to where it leads in one slice, after slices that it could simply go on from. -/
theorem Finishes.last {P : Machine → Prop}
    (hP : ∀ {m m' : Machine} {e : Event}, P m → m.execute 1 = (m', e) → e.isPassing = true → P m')
    {m : Machine} {o : Outcome} (h : Finishes m o) (hm : P m) :
    ∃ m₁, P m₁ ∧ m₁.execute 1 = (o.machine, o.event) := by
  obtain ⟨n, h⟩ := h
  induction n generalizing m o with
  | zero => cases h
  | succ n ih =>
    rw [finish] at h
    rcases hx : m.execute 1 with ⟨m', e⟩
    rw [hx] at h
    cases e with
    | running => exact ih (hP hm hx rfl) h
    | print text =>
      obtain ⟨o', ho', rfl⟩ := Option.map_eq_some_iff.1 h
      exact ih (o := o') (hP hm hx rfl) ho'
    | _ =>
      cases h
      exact ⟨m, hm, hx⟩

theorem Finishes.instructions {m : Machine} {o : Outcome} (h : Finishes m o) :
    o.machine.program.instructions = m.program.instructions := by
  have hs : Stable (·.program.instructions = m.program.instructions) :=
    ⟨fun hk hi => hk.instructions.trans hi, fun _ hi => hi⟩
  have hstep : ∀ {m₁ m₂ : Machine} {e : Event}, m₁.program.instructions = m.program.instructions →
      m₁.execute 1 = (m₂, e) → m₂.program.instructions = m.program.instructions := by
    intro m₁ m₂ e hi hx
    have hl := hs.execute hi 1
    rwa [hx] at hl
  obtain ⟨m₁, hi, hx⟩ := h.last (fun hi hx _ => hstep hi hx) rfl
  exact hstep hi hx

theorem Finishes.idle {m : Machine} {o : Outcome} (h : Finishes m o) (hm : m.status ≠ .idle)
    (ho : o.event.isFinal = true) : o.machine.status = .idle := by
  have hstep : ∀ {m₁ m₂ : Machine} {e : Event}, m₁.status ≠ .idle → m₁.execute 1 = (m₂, e) →
      e.isPassing = true → m₂.status ≠ .idle := by
    intro m₁ m₂ e hs hx he
    refine execute_active hs hx ?_
    cases e with
    | ended | failed => cases he
    | _ => rfl
  obtain ⟨m₁, hs, hx⟩ := h.last hstep hm
  exact (execute_final hs hx).2.2 ho

/-- The run of `source` on the machine, in slices of some sizes, prints `texts` and comes to the
    final event `e` as `m'`. -/
def Completes (m : Machine) (source : String) (texts : List String) (e : Event)
    (m' : Machine) : Prop :=
  ∃ m₀ budgets es, m.start source = .ok m₀ ∧ m₀.drive budgets = (m', es ++ [e]) ∧
    Event.texts es = texts ∧ e.isFinal = true

theorem completes_iff {m m' : Machine} {source : String} {texts : List String} {e : Event} :
    m.Completes source texts e m' ↔ m.status = .idle ∧ e.isFinal = true ∧
      (m.begun source).Finishes ⟨texts, e, m'⟩ := by
  constructor
  · rintro ⟨m₀, budgets, es, hm, hd, rfl, he⟩
    have hs : m.status = .idle := by
      by_contra hne
      simp [start, isActive, hne] at hm
    rw [start_of_idle hs] at hm
    cases hm
    exact ⟨hs, he, finishes_of_drive hd (Event.isPassing_of_isFinal he)⟩
  · rintro ⟨hs, he, n, hn⟩
    obtain ⟨-, es, ht, hd⟩ := drive_of_finish hn
    exact ⟨_, _, es, start_of_idle hs source, hd, ht, he⟩

/-! ## Programs that begin with plain instructions -/

section
variable {is rest : List Instruction} (hp : ∀ i ∈ is, i.isPlain = true) (hr : rest ≠ [])
include hp hr

theorem reaches_plain (m : Machine) :
    Reaches (performAll is m).count (m.withRun (.ofList (is ++ rest) 0) .running)
      (performAll is m).texts ((performAll is m).machine.withRun
        (.ofList (is ++ rest) (performAll is m).count) .running) := by
  have hh : (m.withRun (.ofList (is ++ rest) 0) .running).program.Holds 0 is :=
    ⟨rest, hr, rfl⟩
  have h := performAll_reaches hp hh
  rw [performAll_withRun hp, Nat.zero_add] at h
  exact h

theorem cycle_plain {x : Machine} {n : Nat} {i : Instruction} (hi : is[n]? = some i) :
    (x.withRun (.ofList (is ++ rest) n) .running).cycle =
      ((x.perform i 0).1.withRun (.ofList (is ++ rest) (n + 1)) .running).settle n
        (x.perform i 0).2 := by
  have hh : (x.withRun (.ofList (is ++ rest) n) .running).program.Holds 0 is := ⟨rest, hr, rfl⟩
  have hd := hh.drop hi
  rw [Nat.zero_add] at hd
  have hc := cycle_atLine hd (hp i (List.mem_of_getElem? hi))
  rw [perform_withRun (hp i (List.mem_of_getElem? hi))] at hc
  exact hc

end

/-- A program that begins with the instructions `is` prints `texts` and goes on as `x` with what
    comes after them. -/
def GoesThrough (is : List Instruction) (m : Machine) (texts : List String) (x : Machine) : Prop :=
  ∀ rest, rest ≠ [] → ∀ o, Finishes (m.withRun (.ofList (is ++ rest) 0) .running) o ↔
    ∃ o', Finishes (x.withRun (.ofList (is ++ rest) is.length) .running) o' ∧
      o = { o' with texts := texts ++ o'.texts }

/-- A program that begins with the instructions `is` leads to `o` and no further, but for the
    instructions that come after them. -/
def StopsWithin (is : List Instruction) (m : Machine) (o : Outcome) : Prop :=
  ∀ rest, rest ≠ [] → ∀ o', Finishes (m.withRun (.ofList (is ++ rest) 0) .running) o' ↔
    o' = { o with
      machine := o.machine.withRun (.ofList (is ++ rest) o.machine.program.cursor)
        o.machine.status }

/-- **A program that begins with plain instructions performs them in order** and goes on with the
    rest, unless one of them waits or fails. -/
theorem goesThrough_or {is : List Instruction} (hp : ∀ i ∈ is, i.isPlain = true) (m : Machine) :
    (∃ texts x, GoesThrough is m texts x) ∨ ∃ o, o.event ≠ .ended ∧ StopsWithin is m o := by
  have hle := performAll_count_le hp m
  obtain hc | hlt := Nat.eq_or_lt_of_le hle
  · left
    refine ⟨(performAll is m).texts, (performAll is m).machine, fun rest hr o => ?_⟩
    have h := reaches_plain hp hr m
    rw [hc] at h
    exact h.finishes_iff rfl
  · right
    have hi := List.getElem?_eq_getElem hlt
    -- the instruction that is not performed ends the slice, whatever comes after it
    have key : ∀ (e : Event) (x : Machine) (st : Status), e.isPassing = false →
        (∀ rest, rest ≠ [] →
        ((performAll is m).machine.withRun
            (.ofList (is ++ rest) (performAll is m).count) .running).cycle =
          (x.withRun (.ofList (is ++ rest) ((performAll is m).count + 1)) st, some e)) →
        StopsWithin is m ⟨(performAll is m).texts, e,
          x.withRun (.ofList is ((performAll is m).count + 1)) st⟩ := by
      intro e x st he hcyc rest hr o
      have hx : ((performAll is m).machine.withRun
          (.ofList (is ++ rest) (performAll is m).count) .running).execute 1 =
            (x.withRun (.ofList (is ++ rest) ((performAll is m).count + 1)) st, e) := by
        rw [execute_one rfl, hcyc rest hr]
        rfl
      rw [(reaches_plain hp hr m).finishes_iff rfl]
      simp only [finishes_of_stop hx he, exists_eq_left, List.append_nil]
      rfl
    obtain ⟨r, -, hs⟩ | ⟨x, f, hs⟩ := performAll_stops hp hi
    · refine ⟨_, ?_, key (.input r) (performAll is m).machine (.waiting r (performAll is m).count)
        rfl fun rest hr => ?_⟩
      · simp
      · rw [cycle_plain hp hr hi, hs]
        rfl
    · refine ⟨_, ?_, key (.failed (f.inLine (performAll is m).count)) x .idle rfl
        fun rest hr => ?_⟩
      · simp
      · rw [cycle_plain hp hr hi, hs]
        rfl

/-! ## Two programs -/

theorem execute_halt (is : List Instruction) (x : Machine) :
    (x.withRun (.ofList (is ++ [.halt]) is.length) .running).execute 1 =
      (x.withRun (.ofList (is ++ [.halt]) is.length) .idle, .ended) := by
  have hk : (Program.ofList (is ++ [.halt]) is.length).peek = .halt := by
    simp [Program.ofList, Program.peek, Program.instruction?]
  have ha : (Program.ofList (is ++ [.halt]) is.length).advance =
      .ofList (is ++ [.halt]) is.length := by
    simp [Program.ofList, Program.advance, Program.length]
  have hp : (x.withRun (.ofList (is ++ [.halt]) is.length) .running).performed =
      (x.withRun (.ofList (is ++ [.halt]) is.length) .running, .halt) := by
    simp only [performed, upcoming, fetched, withRun, hk, ha]
    rfl
  rw [execute_one rfl, cycle_eq, hp]
  rfl

/-- In the line behind the instructions `is`, a run goes on as the run of the text that they stand
    before. -/
theorem finishes_second {is : List Instruction} (hm : .mark ∉ is) (x : Machine) (p : Program)
    (s : Status) (q : String) {o : Outcome} :
    Finishes (x.withRun (.ofList (is ++ Source.decode q) is.length) .running) o ↔
      ∃ o', ((x.withRun p s).begun q).Finishes o' ∧ o = o'.behind is := by
  have hb : x.withRun (.ofList (is ++ Source.decode q) is.length) .running =
      ((x.withRun p s).begun q).behind is := by
    simp [begun, behind, withRun, Program.behind, Program.ofSource, Program.ofList, Status.moved]
  rw [hb]
  exact finishes_behind hm (Program.wellFormed_ofSource q)

section
variable {is : List Instruction} {m x : Machine} {texts : List String}
  (h : GoesThrough is m texts x)
include h

/-- By themselves, instructions that a run goes through end there. -/
theorem GoesThrough.finishes_halt {o : Outcome} :
    Finishes (m.withRun (.ofList (is ++ [.halt]) 0) .running) o ↔
      o = ⟨texts, .ended, x.withRun (.ofList (is ++ [.halt]) is.length) .idle⟩ := by
  rw [h _ (by simp)]
  simp only [finishes_of_stop (execute_halt is x) rfl, exists_eq_left, List.append_nil]

/-- Before the text `q`, they lead to where its run leads, so many lines further. -/
theorem GoesThrough.finishes_append (hm : .mark ∉ is) (p : Program) (q : String) {o : Outcome} :
    Finishes (m.withRun (.ofList (is ++ Source.decode q) 0) .running) o ↔
      ∃ o', ((x.withRun p .idle).begun q).Finishes o' ∧
        o = ⟨texts ++ o'.texts, o'.event.moved is.length, o'.machine.behind is⟩ := by
  have hq : Source.decode q ≠ [] := by rw [Source.decode_eq_tokenize]; simp
  rw [h _ hq]
  simp only [finishes_second hm x p .idle q]
  constructor
  · rintro ⟨_, ⟨o', ho', rfl⟩, rfl⟩
    exact ⟨o', ho', rfl⟩
  · rintro ⟨o', ho', rfl⟩
    exact ⟨_, ⟨o', ho', rfl⟩, rfl⟩

end

theorem behind_of_idle {m : Machine} (hs : m.status = .idle) {js : List Instruction}
    (hi : m.program.instructions = js.toArray) (is : List Instruction) : m.behind is =
      { m with program := .ofList (is ++ js) (m.program.cursor + is.length) } := by
  obtain ⟨tape, register, ⟨instructions, cursor⟩, status, input, closed⟩ := m
  cases hs
  cases hi
  rfl

theorem isFinal_moved (n : Nat) (e : Event) : (e.moved n).isFinal = e.isFinal := by
  cases e <;> rfl

theorem plain_tokens {p : String}
    (hp : ∀ i ∈ Source.decode p, i ≠ .mark ∧ i ≠ .jumpBack ∧ i ≠ .exec) :
    ∀ i ∈ Source.tokenize p.toList, i.isPlain = true := by
  have hd := Source.decode_eq_tokenize p
  have hh : .halt ∉ Source.tokenize p.toList := by
    rw [Source.decode, Source.decodeBytes] at hd
    rw [← List.append_cancel_right hd]
    exact Source.halt_notMem_scan _
  intro i hi
  obtain ⟨hm, hj, hx⟩ := hp i (by rw [hd]; exact List.mem_append_left _ hi)
  refine Instruction.isPlain_iff.2 ⟨hm, hj, hx, ?_⟩
  rintro rfl
  exact hh hi

/-- **Running one text after another is running them as one**, if there is no jump in the first.
    The run of the two texts, with a blank between them, completes exactly if the run of the first
    fails, or if it ends and then the run of the second completes.  It prints what they print and
    comes to the same final event, with tape, register and queue as they leave them; only the
    cursor, and the line of a fault of the second text, are as many lines further as the first
    text has instructions. -/
theorem completes_append {p : String}
    (hp : ∀ i ∈ Source.decode p, i ≠ .mark ∧ i ≠ .jumpBack ∧ i ≠ .exec) (q : String)
    (m m' : Machine) (texts : List String) (e : Event) :
    m.Completes (p ++ " " ++ q) texts e m' ↔
      (∃ f m₁, m.Completes p texts (.failed f) m₁ ∧ e = .failed f ∧
        m' = { m₁ with
          program := .ofList (Source.decode (p ++ " " ++ q)) m₁.program.cursor }) ∨
      ∃ texts₁ m₁ texts₂ e₂ m₂, m.Completes p texts₁ .ended m₁ ∧ m₁.Completes q texts₂ e₂ m₂ ∧
        texts = texts₁ ++ texts₂ ∧ e = e₂.moved ((Source.decode p).length - 1) ∧
        m' = { m₂ with
          program := .ofList (Source.decode (p ++ " " ++ q))
            (m₂.program.cursor + ((Source.decode p).length - 1)) } := by
  obtain ⟨P, hplain, hdp, hdq⟩ : ∃ P : List Instruction, (∀ i ∈ P, i.isPlain = true) ∧
      Source.decode p = P ++ [.halt] ∧ Source.decode (p ++ " " ++ q) = P ++ Source.decode q :=
    ⟨_, plain_tokens hp, Source.decode_eq_tokenize p,
      Source.decode_separator (c := ' ') (by decide) p q⟩
  have hmark : .mark ∉ P := fun h => absurd (hplain _ h) (by simp [Instruction.isPlain])
  have hn : (Source.decode p).length - 1 = P.length := by rw [hdp]; simp
  have hbp : m.begun p = m.withRun (.ofList (P ++ [.halt]) 0) .running := by
    rw [← hdp]; rfl
  have hbq : m.begun (p ++ " " ++ q) = m.withRun (.ofList (P ++ Source.decode q) 0) .running := by
    rw [← hdq]; rfl
  simp only [completes_iff, hn, hbp, hbq, hdq]
  obtain ⟨before, x, h⟩ | ⟨⟨before, stop, x⟩, hne, h⟩ := goesThrough_or hplain m
  · -- the first text ends, and `x` goes on with the second
    have happ := fun o => h.finishes_append (o := o) hmark (.ofList (P ++ [.halt]) P.length) q
    constructor
    · rintro ⟨hs, he, hf⟩
      obtain ⟨o', ho', heq⟩ := (happ _).1 hf
      cases heq
      rw [isFinal_moved] at he
      exact Or.inr ⟨before, _, o'.texts, o'.event, o'.machine, ⟨hs, rfl, h.finishes_halt.2 rfl⟩,
        ⟨rfl, he, ho'⟩, rfl, rfl,
        behind_of_idle (ho'.idle (by simp [begun]) he) ho'.instructions P⟩
    · rintro (⟨f, m₁, ⟨-, -, hf⟩, -⟩ |
        ⟨texts₁, m₁, texts₂, e₂, m₂, ⟨hs, -, hf⟩, ⟨-, he, hg⟩, rfl, rfl, rfl⟩)
      · cases h.finishes_halt.1 hf
      · cases h.finishes_halt.1 hf
        refine ⟨hs, (isFinal_moved _ _).trans he, (happ _).2 ⟨_, hg, ?_⟩⟩
        rw [behind_of_idle (hg.idle (by simp [begun]) he) hg.instructions P]
  · -- the first text fails or waits, and nothing of the second is reached
    have hq : Source.decode q ≠ [] := by rw [Source.decode_eq_tokenize]; simp
    constructor
    · rintro ⟨hs, he, hf⟩
      cases (h _ hq _).1 hf
      cases stop with
      | ended => exact absurd rfl hne
      | failed f => exact Or.inl ⟨f, _, ⟨hs, rfl, (h _ (by simp) _).2 rfl⟩, rfl, rfl⟩
      | _ => cases he
    · rintro (⟨f, m₁, ⟨hs, -, hf⟩, rfl, rfl⟩ | ⟨texts₁, m₁, texts₂, e₂, m₂, ⟨-, -, hf⟩, -⟩)
      · cases (h _ (by simp) _).1 hf
        exact ⟨hs, rfl, (h _ hq _).2 rfl⟩
      · cases (h _ (by simp) _).1 hf
        exact absurd rfl hne

/-- The first text prints a one and reads a two; the second counts it down in a loop and then
    fails, in its line 3, which is line 6 of the two. -/
theorem completes_append_loop :
    let m : Machine := ⟨.zeros 0, 0, default, .idle, ['2', '\n'], true⟩
    let m₁ : Machine :=
      ⟨⟨[], 2, []⟩, 0, .ofList (Source.decode "MoO OOM oom") 3, .idle, [], true⟩
    let m₂ : Machine :=
      ⟨⟨[], 0, []⟩, 0, .ofList (Source.decode "MOO MOo moo mOo") 4, .idle, [], true⟩
    let fault (line : Nat) : Event :=
      .failed ⟨.outOfBounds, some line, "POINTER BELOW FIRST CELL"⟩
    (∀ i ∈ Source.decode "MoO OOM oom", i ≠ .mark ∧ i ≠ .jumpBack ∧ i ≠ .exec) ∧
      m.Completes "MoO OOM oom" ["1"] .ended m₁ ∧
      m₁.Completes "MOO MOo moo mOo" [] (fault 3) m₂ ∧
      m.Completes ("MoO OOM oom" ++ " " ++ "MOO MOo moo mOo") ["1"] (fault 6)
        { m₂ with
          program := .ofList (Source.decode ("MoO OOM oom" ++ " " ++ "MOO MOo moo mOo")) 7 } := by
  intro m m₁ m₂ fault
  have hp : ∀ i ∈ Source.decode "MoO OOM oom", i ≠ .mark ∧ i ≠ .jumpBack ∧ i ≠ .exec := by decide
  have h₁ : m.Completes "MoO OOM oom" ["1"] .ended m₁ :=
    ⟨_, [9, 9], [.print "1"], rfl, by decide, rfl, rfl⟩
  have h₂ : m₁.Completes "MOO MOo moo mOo" [] (fault 3) m₂ :=
    ⟨_, [9], [], rfl, by decide, rfl, rfl⟩
  exact ⟨hp, h₁, h₂, (completes_append hp "MOO MOo moo mOo" m _ ["1"] (fault 6)).2
    (Or.inr ⟨["1"], m₁, [], fault 3, m₂, h₁, h₂, rfl, by decide, rfl⟩)⟩

end Machine

end MooCode
