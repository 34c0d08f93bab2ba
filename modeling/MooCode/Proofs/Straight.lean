/-
  Moo-code — code without jumps.

  * `Instruction.isPlain i`: `i` neither moves the cursor nor stands for another instruction.
    `perform_withRun`: such an instruction does the same in every run, wherever it stands.
  * `Machine.performAll is m`: the instructions `is` performed in order on `m`, up to the first
    that waits or fails (`Performance`).
  * `Machine.Reaches n m texts m'`: `n` cycles, none of which waits or ends the run, take `m` to
    `m'` and print `texts`.
  * `performAll_reaches`, `performAll_stops`: a run performs the plain instructions that it comes
    to, one in a cycle, and waits or fails where they do.
-/
import MooCode.Proofs.Suspension

namespace MooCode

/-- Whether the instruction neither moves the cursor nor stands for another one. -/
def Instruction.isPlain : Instruction → Bool
  | jumpBack | mark | exec | halt => false
  | _ => true

theorem Instruction.isPlain_iff {i : Instruction} :
    i.isPlain = true ↔ i ≠ .mark ∧ i ≠ .jumpBack ∧ i ≠ .exec ∧ i ≠ .halt := by
  cases i <;> simp [isPlain]

namespace Machine

/-! ## Places -/

/-- The machine with the cursor in the line `line`. -/
def atLine (m : Machine) (line : Nat) : Machine :=
  { m with program := { m.program with cursor := line } }

theorem atLine_cursor {m : Machine} {line : Nat} (h : m.program.cursor = line) :
    m.atLine line = m := by
  rw [← h]; rfl

/-- The machine in another run: with another program, and doing something else. -/
def withRun (m : Machine) (p : Program) (s : Status) : Machine :=
  { m with program := p, status := s }

theorem read_withRun (m : Machine) (p : Program) (s : Status) (r : Request) :
    (m.withRun p s).read r = ((m.read r).1.withRun p s, (m.read r).2) :=
  read_map (·.withRun p s) rfl rfl (fun _ => rfl) (fun _ _ => rfl) r

theorem demand_withRun (m : Machine) (p : Program) (s : Status) (r : Request) :
    (m.withRun p s).demand r = ((m.demand r).1.withRun p s, (m.demand r).2) := by
  simp only [demand, read_withRun]
  rcases m.read r with ⟨m', _ | _ | f⟩ <;> rfl

theorem withTape_withRun (m : Machine) (p : Program) (s : Status) (t : Except Fault Tape) :
    (m.withRun p s).withTape t = ((m.withTape t).1.withRun p s, (m.withTape t).2) := by
  cases t <;> rfl

/-- **A plain instruction does the same in every run and in every line.** -/
theorem perform_withRun {i : Instruction} (hi : i.isPlain = true) (m : Machine) (p : Program)
    (s : Status) (line : Nat) : (m.withRun p s).perform i line =
      ((m.perform i 0).1.withRun p s, (m.perform i 0).2) := by
  have hh : (m.withRun p s).tape.here = m.tape.here := rfl
  have hr : (m.withRun p s).register = m.register := rfl
  cases i with
  | left | right | decrement | increment => exact withTape_withRun m p s _
  | clear | printInt => rfl
  | character =>
    by_cases h0 : m.tape.here = 0
    · simp only [perform, hh, h0, if_true]
      exact demand_withRun m p s _
    · simp only [perform, hh, h0, if_false, printChar]
      cases Cell.toChar? m.tape.here <;> rfl
  | transfer =>
    by_cases h0 : m.register = 0
    · simp only [perform, hr, h0, if_true]
      rfl
    · simp only [perform, hr, h0, if_false]
      rfl
  | readInt => exact demand_withRun m p s _
  | jumpBack | mark | exec | halt => cases hi

theorem perform_plain {i : Instruction} (hi : i.isPlain = true) (m : Machine) (line : Nat) :
    m.perform i line = ((m.perform i 0).1.withRun m.program m.status, (m.perform i 0).2) :=
  perform_withRun hi m m.program m.status line

/-- A plain instruction does the same wherever the cursor is. -/
theorem perform_atLine {i : Instruction} (hi : i.isPlain = true) (m : Machine)
    (cursor line : Nat) : (m.atLine cursor).perform i line =
      ((m.perform i 0).1.atLine cursor, (m.perform i 0).2) := by
  have hl := perform_withRun hi m { m.program with cursor } m.status line
  have h0 : (m.perform i 0).1.atLine cursor =
      (m.perform i 0).1.withRun { m.program with cursor } m.status := by
    rw [perform_plain hi m 0]
    rfl
  rw [h0]
  exact hl

theorem perform_ne_halt {i : Instruction} (hi : i ≠ .halt) (m : Machine) (line : Nat) :
    (m.perform i line).2 ≠ .halt := by
  have hj : ∀ l, (m.jump l).2 ≠ .halt := by
    intro l
    unfold jump
    split <;> simp
  have ht : ∀ t, (m.withTape t).2 ≠ .halt := by
    intro t
    cases t <;> simp [withTape]
  have hd : ∀ r, (m.demand r).2 ≠ .halt := by
    intro r
    unfold demand
    split <;> simp
  cases i with
  | jumpBack =>
    simp only [perform]
    split
    · exact hj _
    · simp
  | left | right | decrement | increment => exact ht _
  | character =>
    simp only [perform, printChar]
    split
    · exact hd _
    · split <;> simp
  | mark =>
    simp only [perform]
    split
    · split
      · exact hj _
      · simp
    · simp
  | transfer =>
    simp only [perform]
    split <;> simp
  | readInt => exact hd _
  | exec | clear | printInt => simp [perform]
  | halt => exact absurd rfl hi

/-- A plain instruction is performed, waits for the input that it asks for, or fails. -/
theorem perform_plain_cases {i : Instruction} (hi : i.isPlain = true) (m : Machine) :
    (∃ m', m.perform i 0 = (m', .next)) ∨
    (∃ m' text, m.perform i 0 = (m', .print text)) ∨
    (∃ r, i.request? m.tape.here = some r ∧ m.perform i 0 = (m, .await r)) ∨
    ∃ m' f, m.perform i 0 = (m', .fail f) := by
  have hh := perform_ne_halt (Instruction.isPlain_iff.1 hi).2.2.2 m 0
  rcases he : m.perform i 0 with ⟨m', _ | text | r | _ | f⟩
  · exact Or.inl ⟨m', rfl⟩
  · exact Or.inr (Or.inl ⟨m', text, rfl⟩)
  · refine Or.inr (Or.inr (Or.inl ⟨r, ?_⟩))
    rcases hq : i.request? m.tape.here with _ | q
    · exact absurd (congrArg Prod.snd he) (perform_ne_await hq 0 r)
    · rw [perform_of_request hq, demand] at he
      rcases read_cases m q with ⟨v, rest, hr⟩ | ⟨-, hr⟩ | ⟨-, hr⟩ | ⟨rest, text, hr⟩ <;>
        rw [hr] at he <;> cases he
      exact ⟨rfl, rfl⟩
  · rw [he] at hh
    exact absurd rfl hh
  · exact Or.inr (Or.inr (Or.inr ⟨m', f, rfl⟩))

end Machine

/-! ## Lines -/

namespace Program

/-- The lines from `line` on hold the instructions `is`, and the program goes on after them. -/
def Holds (p : Program) (line : Nat) (is : List Instruction) : Prop :=
  ∃ rest, rest ≠ [] ∧ p.instructions.toList.drop line = is ++ rest

namespace Holds
variable {p : Program} {line : Nat} {i : Instruction} {is js : List Instruction}

theorem congr {q : Program} (h : p.Holds line is) (hq : q.instructions = p.instructions) :
    q.Holds line is := by
  rwa [Holds, hq]

theorem get {j : Nat} (h : p.Holds line is) (hi : is[j]? = some i) :
    p.instruction? (line + j) = some i := by
  obtain ⟨rest, -, hd⟩ := h
  have hj : j < is.length := (List.getElem?_eq_some_iff.1 hi).1
  have hg : (p.instructions.toList.drop line)[j]? = p.instructions.toList[line + j]? :=
    List.getElem?_drop
  rw [instruction?_eq, ← hg, hd, List.getElem?_append_left hj, hi]

theorem succ_lt (h : p.Holds line (i :: is)) : line + 1 < p.length := by
  obtain ⟨rest, hr, hd⟩ := h
  have hlen := congrArg List.length hd
  have hpos := List.length_pos_iff.2 hr
  rw [List.length_drop, ← length_eq] at hlen
  simp only [List.length_append, List.length_cons] at hlen
  omega

theorem left (h : p.Holds line (is ++ js)) : p.Holds line is := by
  obtain ⟨rest, hr, hd⟩ := h
  exact ⟨js ++ rest, by simp [hr], by rw [hd, List.append_assoc]⟩

theorem right (h : p.Holds line (is ++ js)) : p.Holds (line + is.length) js := by
  obtain ⟨rest, hr, hd⟩ := h
  refine ⟨rest, hr, ?_⟩
  rw [← List.drop_drop, hd, List.append_assoc, List.drop_left]

theorem tail (h : p.Holds line (i :: is)) : p.Holds (line + 1) is :=
  right (show p.Holds line ([i] ++ is) from h)

theorem drop {j : Nat} (h : p.Holds line is) (hi : is[j]? = some i) :
    p.Holds (line + j) (i :: is.drop (j + 1)) := by
  obtain ⟨hj, hg⟩ := List.getElem?_eq_some_iff.1 hi
  have hr : p.Holds line (is.take j ++ is.drop j) := by rwa [List.take_append_drop]
  have hd := hr.right
  rwa [List.length_take_of_le hj.le, List.drop_eq_getElem_cons hj, hg] at hd

end Holds

end Program

namespace Machine

/-! ## Cycles -/

section
variable {m : Machine} {line : Nat} {i : Instruction} {is : List Instruction}

theorem upcoming_atLine (h : m.program.Holds line (i :: is)) (hi : i ≠ .exec) :
    (m.atLine line).upcoming = i := by
  have hq : (m.atLine line).program.peek = (m.program.instruction? line).getD .halt := rfl
  have hl : m.program.instruction? line = some i := h.get (j := 0) rfl
  rw [upcoming, hq, hl, Option.getD_some, Instruction.resolve, if_neg hi]

theorem fetched_atLine (h : m.program.Holds line (i :: is)) :
    (m.atLine line).fetched = m.atLine (line + 1) := by
  have ha : (m.atLine line).program.advance = (m.atLine (line + 1)).program := if_pos h.succ_lt
  rw [fetched, ha]
  rfl

theorem performed_atLine (h : m.program.Holds line (i :: is)) (hi : i ≠ .exec) :
    (m.atLine line).performed = (m.atLine (line + 1)).perform i line := by
  rw [performed, upcoming_atLine h hi, fetched_atLine h]
  rfl

/-- The cycle of a plain instruction performs it and moves the cursor on. -/
theorem cycle_atLine (h : m.program.Holds line (i :: is)) (hi : i.isPlain = true) :
    (m.atLine line).cycle =
      ((m.perform i 0).1.atLine (line + 1)).settle line (m.perform i 0).2 := by
  have hx := (Instruction.isPlain_iff.1 hi).2.2.1
  rw [cycle_eq, performed_atLine h hx, perform_atLine hi]
  rfl

end

/-- A slice of one cycle comes to the event of that cycle, if it has one. -/
theorem execute_one {m : Machine} (hs : m.status = .running) :
    m.execute 1 = (m.cycle.1, m.cycle.2.getD .running) := by
  simp only [execute, hs, advance]
  rcases m.cycle with ⟨m', _ | e⟩ <;> rfl

/-- `n` cycles, none of which waits or ends the run, take `m` to `m'` and print `texts`. -/
inductive Reaches : (n : Nat) → (m : Machine) → (texts : List String) → (m' : Machine) → Prop
  | refl (m : Machine) : Reaches 0 m [] m
  | next {n : Nat} {m m₁ m' : Machine} {texts : List String} : m.cycle = (m₁, none) →
      Reaches n m₁ texts m' → Reaches (n + 1) m texts m'
  | print {n : Nat} {m m₁ m' : Machine} {text : String} {texts : List String} :
      m.cycle = (m₁, some (.print text)) → Reaches n m₁ texts m' →
        Reaches (n + 1) m (text :: texts) m'

namespace Reaches

theorem single {m m' : Machine} (h : m.cycle = (m', none)) : Reaches 1 m [] m' :=
  .next h (.refl m')

theorem trans {a b : Nat} {m₁ m₂ m₃ : Machine} {texts texts' : List String}
    (h : Reaches a m₁ texts m₂) (h' : Reaches b m₂ texts' m₃) :
    Reaches (a + b) m₁ (texts ++ texts') m₃ := by
  induction h with
  | refl => rwa [Nat.zero_add]
  | next hc _ ih =>
    rw [Nat.add_right_comm]
    exact .next hc (ih h')
  | print hc _ ih =>
    rw [Nat.add_right_comm]
    exact .print hc (ih h')

/-- A run leads to where it leads after any of its cycles. -/
theorem finishes_iff {n : Nat} {m m' : Machine} {texts : List String} (h : Reaches n m texts m')
    (hs : m.status = .running) {o : Outcome} :
    Finishes m o ↔ ∃ o', Finishes m' o' ∧ o = { o' with texts := texts ++ o'.texts } := by
  induction h generalizing o with
  | refl m =>
    constructor
    · intro ho
      exact ⟨o, ho, rfl⟩
    · rintro ⟨o', ho, rfl⟩
      exact ho
  | @next n m m₁ m' texts hc _ ih =>
    have hx : m.execute 1 = (m₁, .running) := by rw [execute_one hs, hc]; rfl
    rw [finishes_of_running hx]
    exact ih ((cycle_keeps hc).status.trans hs)
  | @print n m m₁ m' text texts hc _ ih =>
    have hx : m.execute 1 = (m₁, .print text) := by rw [execute_one hs, hc]; rfl
    have hs₁ : m₁.status = .running := by
      obtain ⟨m₂, hk, hd | ⟨t, hd⟩ | ⟨r, hd⟩ | hd | ⟨f, -, hd⟩⟩ := m.cycle_cases <;>
        rw [hd] at hc <;> cases hc
      exact hk.status.trans hs
    rw [finishes_of_print hx]
    constructor
    · rintro ⟨o₁, ho, rfl⟩
      obtain ⟨o', ho', rfl⟩ := (ih hs₁).1 ho
      exact ⟨o', ho', rfl⟩
    · rintro ⟨o', ho', rfl⟩
      exact ⟨_, (ih hs₁).2 ⟨o', ho', rfl⟩, rfl⟩

end Reaches

/-! ## Instructions in order -/

/-- What performing instructions in order comes to. -/
structure Performance where
  /-- The machine after those performed. -/
  machine : Machine
  /-- What they printed. -/
  texts : List String
  /-- How many have been performed. -/
  count : Nat

/-- The instructions `is` performed in order, up to the first that waits or fails. -/
def performAll : (is : List Instruction) → Machine → Performance
  | [], m => ⟨m, [], 0⟩
  | i :: is, m =>
    match m.perform i 0 with
    | (m', .next) => { performAll is m' with count := (performAll is m').count + 1 }
    | (m', .print text) =>
      ⟨(performAll is m').machine, text :: (performAll is m').texts, (performAll is m').count + 1⟩
    | _ => ⟨m, [], 0⟩

section
variable {i : Instruction} {m m' : Machine} (is : List Instruction)

theorem performAll_of_next (h : m.perform i 0 = (m', .next)) : performAll (i :: is) m =
    ⟨(performAll is m').machine, (performAll is m').texts, (performAll is m').count + 1⟩ := by
  simp only [performAll, h]

theorem performAll_of_print {text : String} (h : m.perform i 0 = (m', .print text)) :
    performAll (i :: is) m = ⟨(performAll is m').machine, text :: (performAll is m').texts,
      (performAll is m').count + 1⟩ := by
  simp only [performAll, h]

theorem performAll_of_await {r : Request} (h : m.perform i 0 = (m', .await r)) :
    performAll (i :: is) m = ⟨m, [], 0⟩ := by
  simp only [performAll, h]

theorem performAll_of_fail {f : Fault} (h : m.perform i 0 = (m', .fail f)) :
    performAll (i :: is) m = ⟨m, [], 0⟩ := by
  simp only [performAll, h]

end

/-- **Performing instructions keeps what each of them keeps.** -/
theorem performAll_keeps {is : List Instruction} (hp : ∀ i ∈ is, i.isPlain = true) (m : Machine) :
    Keeps m (performAll is m).machine := by
  induction is generalizing m with
  | nil => exact .refl m
  | cons i is ih =>
    have hk := perform_keeps m i 0
    rw [List.forall_mem_cons] at hp
    obtain ⟨m', h⟩ | ⟨m', text, h⟩ | ⟨r, -, h⟩ | ⟨m', f, h⟩ := perform_plain_cases hp.1 m <;>
      rw [h] at hk
    · rw [performAll_of_next is h]
      exact hk.trans (ih hp.2 m')
    · rw [performAll_of_print is h]
      exact hk.trans (ih hp.2 m')
    · rw [performAll_of_await is h]
      exact .refl m
    · rw [performAll_of_fail is h]
      exact .refl m

/-- **A run performs the plain instructions that it comes to, one in a cycle.** -/
theorem performAll_reaches {is : List Instruction} (hp : ∀ i ∈ is, i.isPlain = true)
    {m : Machine} {line : Nat} (h : m.program.Holds line is) :
    Reaches (performAll is m).count (m.atLine line) (performAll is m).texts
      ((performAll is m).machine.atLine (line + (performAll is m).count)) := by
  induction is generalizing m line with
  | nil => exact .refl _
  | cons i is ih =>
    rw [List.forall_mem_cons] at hp
    have hk := perform_keeps m i 0
    have hc := cycle_atLine h hp.1
    obtain ⟨m', hm⟩ | ⟨m', text, hm⟩ | ⟨r, -, hm⟩ | ⟨m', f, hm⟩ := perform_plain_cases hp.1 m <;>
      rw [hm] at hc hk
    · have hr := ih hp.2 (h.tail.congr hk.instructions)
      rw [Nat.add_right_comm, Nat.add_assoc] at hr
      rw [performAll_of_next is hm]
      exact .next hc hr
    · have hr := ih hp.2 (h.tail.congr hk.instructions)
      rw [Nat.add_right_comm, Nat.add_assoc] at hr
      rw [performAll_of_print is hm]
      exact .print hc hr
    · rw [performAll_of_await is hm]
      exact .refl _
    · rw [performAll_of_fail is hm]
      exact .refl _

/-- Performing plain instructions does the same in every run. -/
theorem performAll_withRun {is : List Instruction} (hp : ∀ i ∈ is, i.isPlain = true) (m : Machine)
    (p : Program) (s : Status) : performAll is (m.withRun p s) =
      { performAll is m with machine := (performAll is m).machine.withRun p s } := by
  induction is generalizing m with
  | nil => rfl
  | cons i is ih =>
    rw [List.forall_mem_cons] at hp
    have hi := perform_withRun hp.1 m p s 0
    obtain ⟨m', hm⟩ | ⟨m', text, hm⟩ | ⟨r, -, hm⟩ | ⟨m', f, hm⟩ := perform_plain_cases hp.1 m <;>
      rw [hm] at hi
    · rw [performAll_of_next is hi, performAll_of_next is hm, ih hp.2 m']
    · rw [performAll_of_print is hi, performAll_of_print is hm, ih hp.2 m']
    · rw [performAll_of_await is hi, performAll_of_await is hm]
    · rw [performAll_of_fail is hi, performAll_of_fail is hm]

theorem performAll_count_le {is : List Instruction} (hp : ∀ i ∈ is, i.isPlain = true)
    (m : Machine) : (performAll is m).count ≤ is.length := by
  induction is generalizing m with
  | nil => exact Nat.le_refl 0
  | cons i is ih =>
    rw [List.forall_mem_cons] at hp
    obtain ⟨m', hm⟩ | ⟨m', text, hm⟩ | ⟨r, -, hm⟩ | ⟨m', f, hm⟩ := perform_plain_cases hp.1 m
    · rw [performAll_of_next is hm]
      exact Nat.succ_le_succ (ih hp.2 m')
    · rw [performAll_of_print is hm]
      exact Nat.succ_le_succ (ih hp.2 m')
    · rw [performAll_of_await is hm]
      exact Nat.zero_le _
    · rw [performAll_of_fail is hm]
      exact Nat.zero_le _

/-- Instructions that are not all performed wait or fail. -/
theorem performAll_stops {is : List Instruction} (hp : ∀ i ∈ is, i.isPlain = true) {m : Machine}
    {i : Instruction} (hi : is[(performAll is m).count]? = some i) :
    (∃ r, i.request? (performAll is m).machine.tape.here = some r ∧
      (performAll is m).machine.perform i 0 = ((performAll is m).machine, .await r)) ∨
    ∃ m' f, (performAll is m).machine.perform i 0 = (m', .fail f) := by
  induction is generalizing m with
  | nil => cases hi
  | cons j is ih =>
    rw [List.forall_mem_cons] at hp
    obtain ⟨m', hm⟩ | ⟨m', text, hm⟩ | ⟨r, hq, hm⟩ | ⟨m', f, hm⟩ := perform_plain_cases hp.1 m
    · rw [performAll_of_next is hm] at hi ⊢
      exact ih hp.2 hi
    · rw [performAll_of_print is hm] at hi ⊢
      exact ih hp.2 hi
    · rw [performAll_of_await is hm] at hi ⊢
      cases hi
      exact Or.inl ⟨r, hq, hm⟩
    · rw [performAll_of_fail is hm] at hi ⊢
      cases hi
      exact Or.inr ⟨m', f, hm⟩

end Machine

end MooCode
