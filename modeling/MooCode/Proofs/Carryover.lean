/-
  Moo-code — what a run leaves to the next.

  * `Machine.Rested m₁ m₂`: no run is on in either machine, and they differ in nothing but the
    program of their last one.
  * `Rested.call`, `Rested.calls`: such machines answer all calls alike, and are one as soon as a
    run begins.
  * `Machine.calls_isolated`: runs see tape, register and input of the runs before and nothing
    else of them; and after a reset, input alone.
-/
import MooCode.Proofs.Queue
import MooCode.Proofs.Schedules
import MooCode.Proofs.Straight

namespace MooCode.Machine

theorem reset_of_idle {m : Machine} (hs : m.status = .idle) :
    m.call .reset = ({ m with tape := m.tape.clear, register := 0 }, .done) := by
  simp only [call, reset, isActive, hs]
  rfl

/-! ## Machines that differ in their last program -/

/-- No run is on in either machine, and they differ in nothing but the program of their last
    one. -/
structure Rested (m₁ m₂ : Machine) : Prop where
  idle : m₁.status = .idle
  eq : ∃ p, m₂ = m₁.withRun p .idle

/-- Machines that no run is on in are known, but for their program, by their cells, pointer,
    register and input. -/
theorem rested_of_eq {m₁ m₂ : Machine} (h₁ : m₁.status = .idle) (h₂ : m₂.status = .idle)
    (hc : m₁.tape.cells = m₂.tape.cells) (hp : m₁.tape.pointer = m₂.tape.pointer)
    (hr : m₁.register = m₂.register) (hi : m₁.input = m₂.input) (hx : m₁.closed = m₂.closed) :
    Rested m₁ m₂ := by
  refine ⟨h₁, m₂.program, ?_⟩
  rw [withRun, Tape.ext_cells hc hp, hr, hi, hx, ← h₂]

namespace Rested
variable {m₁ m₂ : Machine} (h : Rested m₁ m₂)
include h

/-- A run that begins replaces what the machines differ in. -/
theorem call_start (source : String) : m₁.call (.start source) = m₂.call (.start source) := by
  obtain ⟨hs, p, rfl⟩ := h
  simp only [Machine.call, start_of_idle hs, start_of_idle (m := m₁.withRun p .idle) rfl]
  rfl

/-- Any other call is answered alike and leaves the difference as it is. -/
theorem call {c : Call} (hc : ∀ source, c ≠ .start source) :
    (m₁.call c).2 = (m₂.call c).2 ∧ Rested (m₁.call c).1 (m₂.call c).1 := by
  obtain ⟨hs, p, rfl⟩ := h
  cases c with
  | start source => exact absurd rfl (hc source)
  | reset =>
    rw [reset_of_idle hs, reset_of_idle (m := m₁.withRun p .idle) rfl]
    exact ⟨rfl, hs, p, rfl⟩
  | enter text => exact ⟨rfl, hs, p, rfl⟩
  | closeInput => exact ⟨rfl, hs, p, rfl⟩
  | execute n =>
    simp only [Machine.call, execute, hs]
    exact ⟨rfl, hs, p, rfl⟩

/-- **Machines that differ in their last program answer all calls alike**, and are one as soon as a
    run begins. -/
theorem calls (cs : List Call) : (m₁.calls cs).2 = (m₂.calls cs).2 ∧
    ((∃ source, .start source ∈ cs) → (m₁.calls cs).1 = (m₂.calls cs).1) := by
  induction cs generalizing m₁ m₂ with
  | nil =>
    refine ⟨rfl, ?_⟩
    rintro ⟨source, hm⟩
    cases hm
  | cons c cs ih =>
    by_cases hc : ∃ source, c = .start source
    · obtain ⟨source, rfl⟩ := hc
      rw [Machine.calls, Machine.calls, h.call_start source]
      exact ⟨rfl, fun _ => rfl⟩
    · rw [not_exists] at hc
      obtain ⟨ha, hr⟩ := h.call hc
      obtain ⟨hrs, hm⟩ := ih hr
      refine ⟨by simp only [Machine.calls, ha, hrs], ?_⟩
      rintro ⟨source, hs⟩
      obtain rfl | hs := List.mem_cons.1 hs
      · exact absurd rfl (hc source)
      · exact hm ⟨source, hs⟩

end Rested

/-! ## Input without a run -/

/-- Calls that enter the lines `lines` and, if `closed`, say that no more input comes. -/
def supply (lines : List String) (closed : Bool) : List Call :=
  lines.map .enter ++ if closed then [.closeInput] else []

/-- Input that comes to a machine changes nothing else. -/
theorem calls_supply (m : Machine) (lines : List String) (closed : Bool) :
    (m.calls (supply lines closed)).1 =
      m.withInput (m.input ++ queued lines) (m.closed || closed) := by
  induction lines generalizing m with
  | nil => cases closed <;> simp [supply, calls, call, queued, withInput, closeInput]
  | cons l lines ih =>
    have hl := ih (m.enter l)
    simp only [supply, List.map_cons, List.cons_append, calls, call] at hl ⊢
    rw [hl]
    simp [enter, queued, withInput]

/-- What is in the queue can be entered. -/
theorem Lined.exists_queued {m : Machine} (h : m.Lined) : ∃ lines, queued lines = m.input := by
  rcases hi : m.input.getLast? with _ | c
  · exact ⟨[], (List.getLast?_eq_none_iff.1 hi).symm⟩
  · have hc := h c hi
    subst hc
    obtain ⟨q, hq⟩ := List.getLast?_eq_some_iff.1 hi
    exact ⟨[String.ofList q], by simp [queued, hq]⟩

theorem clear_of_fresh {capacity : Nat} {m m₀ : Machine} (hm : Sound capacity m)
    (h₀ : Fresh capacity m₀) : m.tape.clear = m₀.tape := by
  obtain ⟨n, rfl, rfl⟩ := h₀.eq
  have hc := hm.capacity_eq
  have hn : m.tape.left.length + m.tape.right.length = n := by
    simp only [Tape.capacity] at hc
    omega
  rw [Tape.clear, hn]
  rfl

/-- **Nothing of a run is left to the next but tape, register and input.**  Let a machine come to
    rest, whatever has been asked of it.  Any other machine at rest with the same cells, pointer,
    register and input answers the same to all calls that begin with a new run, and is the same
    machine after each of them.  After a reset, so is a new machine of the same capacity to which
    the input that had not been read is entered, which is always possible. -/
theorem calls_isolated {capacity : Nat} {m : Machine} (hm : Fresh capacity m) {cs : List Call}
    (hs : (m.calls cs).1.status = .idle) :
    let x := (m.calls cs).1
    (∀ y : Machine, y.status = .idle → x.tape.cells = y.tape.cells →
      x.tape.pointer = y.tape.pointer → x.register = y.register → x.input = y.input →
      x.closed = y.closed → ∀ source later,
        x.calls (.start source :: later) = y.calls (.start source :: later)) ∧
    (∃ lines, queued lines = x.input) ∧
    ∀ m₀ lines, Fresh capacity m₀ → queued lines = x.input →
      let y := (m₀.calls (supply lines x.closed)).1
      y.input = x.input ∧ y.closed = x.closed ∧ ∀ source later,
        x.calls (.reset :: .start source :: later) =
          ((y.calls (.start source :: later)).1,
            .done :: (y.calls (.start source :: later)).2) := by
  intro x
  have hx : Sound capacity x := hm.sound.calls cs
  have hsame : ∀ {y z : Machine}, Rested y z → ∀ source later,
      y.calls (.start source :: later) = z.calls (.start source :: later) := by
    intro y z h source later
    obtain ⟨hr, he⟩ := h.calls (.start source :: later)
    exact Prod.ext (he ⟨source, List.mem_cons_self⟩) hr
  refine ⟨?_, (hm.lined.calls cs).exists_queued, ?_⟩
  · intro y hy hc hp hr hi hcl
    exact hsame (rested_of_eq hs hy hc hp hr hi hcl)
  · intro m₀ lines h₀ hq
    have hy := m₀.calls_supply lines x.closed
    have h₀' := clear_of_fresh hx h₀
    obtain ⟨n, -, rfl⟩ := h₀.eq
    have hy : ((ofTape (.zeros n)).calls (supply lines x.closed)).1 =
        (ofTape (.zeros n)).withInput x.input x.closed := by
      rw [hy, hq]
      rfl
    refine ⟨by rw [hy]; rfl, by rw [hy]; rfl, ?_⟩
    intro source later
    have hr : Rested { x with tape := x.tape.clear, register := 0 }
        ((ofTape (.zeros n)).withInput x.input x.closed) := ⟨hs, _, by rw [h₀']; rfl⟩
    rw [hy, ← hsame hr, calls, reset_of_idle hs]

/-- A run that waited and was given up and one that came to its end leave the same to the next. -/
theorem calls_isolated_aborted :
    let m := ofTape (.zeros 1)
    let x := (m.calls [.start "oom mOo", .execute 3, .enter "8", .enter "5", .execute 3]).1
    let y := (m.calls [.enter "8", .enter "5", .start "oom", .execute 9]).1
    let z := (m.calls (supply ["5"] false)).1
    let later := [.execute 9, .execute 9, .execute 9]
    x.program ≠ y.program ∧
      x.calls (.start "OOM oom OOM" :: later) = y.calls (.start "OOM oom OOM" :: later) ∧
      (x.calls (.start "OOM oom OOM" :: later)).2 =
        [.done, .event (.print "8"), .event (.print "5"), .event .ended] ∧
      x.calls (.reset :: .start "OOM oom OOM" :: later) =
        ((z.calls (.start "OOM oom OOM" :: later)).1,
          .done :: (z.calls (.start "OOM oom OOM" :: later)).2) := by
  intro m x y z later
  have hm : Fresh 2 m := .blank rfl
  have hs : x.status = .idle := by decide
  obtain ⟨hsame, -, hreset⟩ := calls_isolated hm hs
  refine ⟨by decide, ?_, by decide, ?_⟩
  · exact hsame y (by decide) (by decide) (by decide) (by decide) (by decide) (by decide) _ later
  · exact (hreset m ["5"] hm (by decide)).2.2 _ later

end MooCode.Machine
