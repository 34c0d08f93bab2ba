/-
  Moo-code — the queue of entered input.

  * `read_suffix`, `perform_suffix`, `execute_suffix`: input is taken from the front of the queue
    and from nowhere else.
  * `Machine.Lined m`: the queue is empty or ends with a newline.  Input is entered line by
    line, so this holds after any calls (`Lined.calls`), and an integer read takes a line
    with the newline that ends it (`Lined.nextLine?_eq`).
-/
import MooCode.Proofs.Sound

namespace MooCode.Machine

/-! ## What is taken from the queue -/

theorem nextLine?_eq_some {m : Machine} {line rest : List Char}
    (h : m.nextLine? = some (line, rest)) : m.input = line ++ rest ∧
      ((∃ l, line = l ++ ['\n'] ∧ '\n' ∉ l) ∨ ('\n' ∉ line ∧ line ≠ [] ∧ rest = [])) := by
  unfold nextLine? at h
  split at h
  · next l x q hs =>
    obtain ⟨hi, hl, hx⟩ := Text.span_eq_cons_iff.1 hs
    have hn : x = '\n' := by simpa using hx
    subst hn
    cases h
    refine ⟨by rw [hi, List.append_assoc, List.singleton_append], Or.inl ⟨l, rfl, ?_⟩⟩
    intro hm
    simpa using hl _ hm
  · next l hs =>
    split at h
    · next hc =>
      cases h
      rw [List.span_eq_takeWhile_dropWhile] at hs
      obtain ⟨ht, hd⟩ := Prod.mk.inj hs
      have hi := List.takeWhile_append_dropWhile (p := fun c => decide (c ≠ '\n')) (l := m.input)
      rw [ht, hd] at hi
      refine ⟨hi.symm, Or.inr ⟨?_, hc.2, rfl⟩⟩
      intro hm
      rw [← ht] at hm
      simpa using List.mem_takeWhile_imp hm
    · cases h

theorem read_suffix {m m' : Machine} {r : Request} {x : Reading} (h : m.read r = (m', x)) :
    m'.input <:+ m.input := by
  have hs : m.starve.1.input <:+ m.input := List.suffix_rfl
  have hm : m' = (m.read r).1 := by rw [h]
  subst hm
  cases r with
  | char =>
    simp only [read, readChar]
    rcases hi : m.input with _ | ⟨c, rest⟩
    · rwa [hi] at hs
    · exact List.suffix_cons c rest
  | integer =>
    simp only [read, readInteger]
    rcases hn : m.nextLine? with _ | ⟨line, rest⟩
    · exact hs
    · have hr : rest <:+ m.input := ⟨line, (nextLine?_eq_some hn).1.symm⟩
      dsimp only
      rcases Cell.ofDecimal? (Text.trim line) with _ | v <;> exact hr

theorem demand_suffix (m : Machine) (r : Request) : (m.demand r).1.input <:+ m.input := by
  unfold demand
  split <;> next hr => exact read_suffix hr

/-- **An instruction takes input from the front of the queue, if any.** -/
theorem perform_suffix (m : Machine) (i : Instruction) (line : Nat) :
    (m.perform i line).1.input <:+ m.input := by
  rcases hq : i.request? m.tape.here with _ | r
  · exact (perform_input hq line).symm ▸ List.suffix_rfl
  · rw [perform_of_request hq]
    exact demand_suffix m r

theorem input_settle (m : Machine) (line : Nat) (e : Effect) :
    (m.settle line e).1.input = m.input := by
  cases e <;> rfl

theorem cycle_suffix (m : Machine) : m.cycle.1.input <:+ m.input := by
  rw [cycle_eq, input_settle]
  exact perform_suffix m.fetched _ _

theorem advance_suffix (n : Nat) (m : Machine) : (advance n m).1.input <:+ m.input := by
  induction n generalizing m with
  | zero => exact List.suffix_rfl
  | succ n ih =>
    have hs := m.cycle_suffix
    simp only [advance]
    rcases hc : m.cycle with ⟨m', _ | e⟩ <;> rw [hc] at hs
    · exact (ih m').trans hs
    · exact hs

theorem execute_suffix (m : Machine) (n : Nat) : (m.execute n).1.input <:+ m.input := by
  rcases m.execute_cases with ⟨-, hx⟩ | ⟨-, hx⟩ |
    ⟨r, line, -, ⟨m', hr, hx⟩ | ⟨-, hx⟩ | ⟨m', f, hr, hx⟩⟩
  · simp only [hx, List.suffix_rfl]
  · rw [hx]
    exact advance_suffix n m
  · have hs : m'.input <:+ m.input := read_suffix hr
    rw [hx]
    exact (advance_suffix n { m' with status := .running }).trans hs
  · simp only [hx, List.suffix_rfl]
  · have hs : m'.input <:+ m.input := read_suffix hr
    rw [hx]
    exact hs

/-! ## Lines -/

/-- The queue is empty or ends with a newline. -/
def Lined (m : Machine) : Prop :=
  ∀ c, m.input.getLast? = some c → c = '\n'

theorem Lined.suffix {m m' : Machine} (h : m.Lined) (hs : m'.input <:+ m.input) : m'.Lined := by
  obtain ⟨taken, hi⟩ := hs
  intro c hc
  refine h c ?_
  rw [← hi, List.getLast?_append, hc, Option.some_or]

theorem Lined.enter {m : Machine} (text : String) : (m.enter text).Lined := by
  intro c hc
  simpa [Machine.enter] using hc.symm

/-- An integer read takes a line and the newline that ends it. -/
theorem Lined.nextLine?_eq {m : Machine} (h : m.Lined) {line rest : List Char}
    (hn : m.nextLine? = some (line, rest)) :
    ∃ l, line = l ++ ['\n'] ∧ '\n' ∉ l ∧ m.input = l ++ '\n' :: rest := by
  obtain ⟨hi, ⟨l, rfl, hl⟩ | ⟨hl, hne, rfl⟩⟩ := nextLine?_eq_some hn
  · exact ⟨l, rfl, hl, by rw [hi, List.append_assoc, List.singleton_append]⟩
  · -- the last character of such a line would be a newline
    rw [List.append_nil] at hi
    have hlast : m.input.getLast? = some (line.getLast hne) := by
      rw [hi, List.getLast?_eq_some_getLast hne]
    have hm := List.getLast_mem hne
    rw [h _ hlast] at hm
    exact absurd hm hl

theorem Lined.call {m : Machine} (h : m.Lined) (c : Call) : (m.call c).1.Lined := by
  cases c with
  | start text =>
    simp only [Machine.call, start]
    split <;> exact h
  | reset =>
    simp only [Machine.call, reset]
    split <;> exact h
  | enter text => exact Lined.enter text
  | closeInput => exact h
  | execute n => exact h.suffix (execute_suffix m n)

/-- **Whatever is asked of a machine, its queue is empty or ends with a newline.** -/
theorem Lined.calls {m : Machine} (h : m.Lined) (cs : List Call) : (m.calls cs).1.Lined := by
  induction cs generalizing m with
  | nil => exact h
  | cons c cs ih => exact ih (h.call c)

theorem Fresh.lined {capacity : Nat} {m : Machine} (h : Fresh capacity m) : m.Lined := by
  obtain ⟨n, -, rfl⟩ := h.eq
  intro c hc
  cases hc

end MooCode.Machine
