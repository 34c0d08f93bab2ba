/-
  Moo-code — runs that wait for input.

  * `advance_event`, `execute_event`: an event that a slice comes to is that of one cycle, unless
    the slice does not get beyond the read that is waited for.
  * `execute_resumed`: a machine that waits goes on as if it had not yet come to the
    instruction that waits.
  * `Suspended m cs d r`: in the course of the calls `cs` to `m`, the cycle that `d` was about to
    begin has come to wait for `r`, and nothing but the input has changed since.
    `suspended_of_waiting`: a machine that waits has been suspended by such a cycle.
-/
import Mathlib.Data.List.Induction
import MooCode.Proofs.Eager

namespace MooCode.Machine

/-! ## The cycle that comes to an event -/

theorem advance_event {m m' : Machine} {n : Nat} {e : Event} (h : advance n m = (m', e))
    (he : e ≠ .running) :
    ∃ a d, a < n ∧ advance a m = (d, .running) ∧ d.cycle = (m', some e) := by
  induction n generalizing m with
  | zero =>
    cases h
    exact absurd rfl he
  | succ n ih =>
    simp only [advance] at h
    rcases hc : m.cycle with ⟨m₁, _ | e₁⟩ <;> rw [hc] at h
    · obtain ⟨a, d, hlt, ha, hd⟩ := ih h
      refine ⟨a + 1, d, by omega, ?_, hd⟩
      simp only [advance, hc]
      exact ha
    · cases h
      exact ⟨0, m, by omega, rfl, hc⟩

/-- An event is that of one cycle, unless the slice finds no run or does not get beyond the read
    that is waited for. -/
theorem execute_event {m m' : Machine} {n : Nat} {e : Event} (h : m.execute n = (m', e))
    (he : e ≠ .running) :
    (∃ a d, a < n ∧ m.execute a = (d, .running) ∧ d.cycle = (m', some e)) ∨
    (m' = m ∧ (e = .stopped ∨ ∃ r, e = .input r)) ∨
    ∃ r line m₁ f, m.status = .waiting r line ∧ m.read r = (m₁, .refused f) ∧
      m' = { m₁ with status := .idle } ∧ e = .failed (f.inLine line) := by
  rcases m.execute_cases with ⟨-, hx⟩ | ⟨-, hx⟩ |
    ⟨r, line, hs, ⟨m₁, -, hx⟩ | ⟨-, hx⟩ | ⟨m₁, f, hr, hx⟩⟩ <;> rw [hx] at h
  · cases h
    exact Or.inr (Or.inl ⟨rfl, Or.inl rfl⟩)
  · obtain ⟨a, d, hlt, ha, hd⟩ := advance_event h he
    exact Or.inl ⟨a, d, hlt, (hx a).trans ha, hd⟩
  · obtain ⟨a, d, hlt, ha, hd⟩ := advance_event h he
    exact Or.inl ⟨a, d, hlt, (hx a).trans ha, hd⟩
  · cases h
    exact Or.inr (Or.inl ⟨rfl, Or.inr ⟨r, rfl⟩⟩)
  · cases h
    exact Or.inr (Or.inr ⟨r, line, m₁, f, hs, hr, rfl, rfl⟩)

theorem status_of_running {m m' : Machine} {n : Nat} (h : m.execute n = (m', .running)) :
    m'.status = .running := by
  rcases m.execute_cases with ⟨-, hx⟩ | ⟨hs, hx⟩ |
    ⟨r, line, -, ⟨m₁, -, hx⟩ | ⟨-, hx⟩ | ⟨m₁, f, -, hx⟩⟩ <;> rw [hx] at h
  · cases h
  · exact (advance_keeps h).status.trans hs
  · exact (advance_keeps h).status
  · cases h
  · cases h

/-! ## Going on after a wait -/

/-- **A machine that waits goes on as if it had not yet come to the instruction that
    waits.** -/
theorem execute_resumed {d : Machine} (hs : d.status = .running) {r : Request}
    (hq : d.upcoming.request? d.tape.here = some r) (n : Nat) :
    { d.fetched with status := .waiting r d.program.cursor }.execute n = d.execute (n + 1) := by
  have hp : d.performed = d.fetched.demand r := perform_of_request (m := d.fetched) hq _
  have hw := read_withStatus d.fetched r (.waiting r d.program.cursor)
  have hx : d.execute (n + 1) = advance (n + 1) d := by simp only [execute, hs]
  rw [hx, advance, cycle_eq, hp]
  -- both sides begin with the same read, before the slice or in its first cycle
  rcases read_cases d.fetched r with ⟨v, rest, hr⟩ | ⟨-, hr⟩ | ⟨-, hr⟩ | ⟨rest, text, hr⟩ <;>
    rw [hr] at hw <;> simp only [execute, hw, demand, hr, settle, abort]
  have hs' : d.fetched.status = .running := hs
  rw [← hs']

/-! ## Where a machine came to wait -/

theorem calls_append (m : Machine) (cs cs' : List Call) :
    (m.calls (cs ++ cs')).1 = ((m.calls cs).1.calls cs').1 := by
  induction cs generalizing m with
  | nil => rfl
  | cons c cs ih => exact ih (m.call c).1

/-- A slice that leaves a machine waiting has come to wait in one of its cycles, or has found the
    machine waiting. -/
theorem execute_waiting {m m' : Machine} {n : Nat} {e : Event} (h : m.execute n = (m', e))
    {r : Request} {line : Nat} (hw : m'.status = .waiting r line) : m' = m ∨
      ∃ a d, a < n ∧ m.execute a = (d, .running) ∧ d.cycle = (m', some (.input r)) ∧
        d.program.cursor = line := by
  by_cases he : e = .running
  · subst he
    rw [status_of_running h] at hw
    cases hw
  · obtain ⟨a, d, hlt, ha, hd⟩ | ⟨hm, -⟩ | ⟨q, l, m₁, f, -, -, rfl, -⟩ := execute_event h he
    · refine Or.inr ⟨a, d, hlt, ha, ?_⟩
      have hs := status_of_running ha
      obtain ⟨m₁, hk, hc | ⟨text, hc⟩ | ⟨q, hc⟩ | hc | ⟨f, -, hc⟩⟩ := d.cycle_cases <;>
        rw [hc] at hd <;> cases hd
      · rw [hk.status, hs] at hw
        cases hw
      · cases hw
        exact ⟨hc, rfl⟩
      · cases hw
      · cases hw
    · exact Or.inl hm
    · cases hw

/-- A call after which a machine waits has changed nothing but the input, or has come to wait in
    one of its cycles. -/
theorem call_waiting {m : Machine} {c : Call} {r : Request} {line : Nat}
    (hw : (m.call c).1.status = .waiting r line) :
    (∃ input closed, (m.call c).1 = m.withInput input closed) ∨
      ∃ n a d, c = .execute n ∧ a < n ∧ m.execute a = (d, .running) ∧
        d.cycle = ((m.call c).1, some (.input r)) ∧ d.program.cursor = line := by
  cases c with
  | start text =>
    simp only [call, start] at hw ⊢
    split at hw
    · next ha => exact Or.inl ⟨m.input, m.closed, by rw [if_pos ha]; rfl⟩
    · cases hw
  | reset =>
    simp only [call, reset] at hw ⊢
    split at hw
    · next ha => exact Or.inl ⟨m.input, m.closed, by rw [if_pos ha]; rfl⟩
    · next ha =>
      have hs : m.status = .waiting r line := hw
      simp [isActive, hs] at ha
  | enter text => exact Or.inl ⟨_, m.closed, rfl⟩
  | closeInput => exact Or.inl ⟨m.input, true, rfl⟩
  | execute n =>
    obtain hm | ⟨a, d, hlt, ha, hd, hl⟩ := execute_waiting (Prod.ext rfl rfl) hw
    · exact Or.inl ⟨m.input, m.closed, hm⟩
    · exact Or.inr ⟨n, a, d, rfl, hlt, ha, hd, hl⟩

/-- In the course of the calls `cs` to `m`, the cycle that `d` was about to begin has come to wait
    for `r`, and nothing but the input has changed since. -/
def Suspended (m : Machine) (cs : List Call) (d : Machine) (r : Request) : Prop :=
  ∃ cs₁ n cs₂ a w input closed, cs = cs₁ ++ .execute n :: cs₂ ∧ a < n ∧
    (m.calls cs₁).1.execute a = (d, .running) ∧ d.cycle = (w, some (.input r)) ∧
    (m.calls cs).1 = w.withInput input closed

namespace Suspended
variable {m d : Machine} {cs : List Call} {r : Request} (h : Suspended m cs d r)
include h

theorem tape : (m.calls cs).1.tape = d.tape := by
  obtain ⟨cs₁, n, cs₂, a, w, input, closed, -, -, -, hd, hm⟩ := h
  obtain ⟨-, -, rfl⟩ := cycle_input hd
  rw [hm]
  rfl

theorem register : (m.calls cs).1.register = d.register := by
  obtain ⟨cs₁, n, cs₂, a, w, input, closed, -, -, -, hd, hm⟩ := h
  obtain ⟨-, -, rfl⟩ := cycle_input hd
  rw [hm]
  rfl

end Suspended

/-- **A machine that waits has been suspended by a cycle in the line that it waits in.** -/
theorem suspended_of_waiting {m : Machine} (hm : m.status = .idle) {cs : List Call} {r : Request}
    {line : Nat} (hw : (m.calls cs).1.status = .waiting r line) :
    ∃ d, Suspended m cs d r ∧ d.program.cursor = line := by
  induction cs using List.reverseRecOn with
  | nil =>
    have hi : (m.calls []).1.status = .idle := hm
    rw [hi] at hw
    cases hw
  | append_singleton cs c ih =>
    have hc : (m.calls (cs ++ [c])).1 = ((m.calls cs).1.call c).1 := calls_append m cs [c]
    rw [hc] at hw
    obtain ⟨input, closed, hi⟩ | ⟨n, a, d, rfl, hlt, ha, hd, hl⟩ := call_waiting hw
    · -- the machine was waiting before the call
      have hw' : (m.calls cs).1.status = .waiting r line := by
        rw [hi] at hw
        exact hw
      obtain ⟨d, ⟨cs₁, n, cs₂, a, w, q, x, hcs, hlt, ha, hd, hs⟩, hl⟩ := ih hw'
      refine ⟨d, ⟨cs₁, n, cs₂ ++ [c], a, w, input, closed, by simp [hcs], hlt, ha, hd, ?_⟩, hl⟩
      rw [hc, hi, hs]
      rfl
    · exact ⟨d, ⟨cs, n, [], a, _, _, _, rfl, hlt, ha, hd, hc.trans (withInput_self _).symm⟩, hl⟩

end MooCode.Machine
