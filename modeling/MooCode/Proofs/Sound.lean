/-
  Moo-code — sound machines.

  * `Machine.Sound capacity m`: `m` has `capacity` cells and a well-formed program.
  * `Machine.Fresh capacity m`: `m` is a machine with `capacity` cells that nothing has been
    asked of yet; it is sound (`Fresh.sound`).
  * `Sound.call`, `Sound.calls`: whatever is asked of a sound machine leaves it sound.
  * `Fault.OfRun f`: `f` is a fault as an instruction raises it, without a place and
    not one of the surroundings.  `perform_fail` and `read_refused`: on a sound
    machine there are no others.  Those of the tape (`Fault.OfTape f`) are among them.
-/
import MooCode.Proofs.Cycle

namespace MooCode

/-- A fault as an instruction raises it: it has no place yet, and it is not one of the
    surroundings. -/
structure Fault.OfRun (f : Fault) : Prop where
  line : f.line = none
  cause : f.cause ≠ .internalError

/-- A fault of a move or of a count on the tape. -/
structure Fault.OfTape (f : Fault) : Prop where
  line : f.line = none
  cause : f.cause = .outOfBounds ∨ f.cause = .overflow

namespace Fault.OfTape
variable {f : Fault} (h : f.OfTape)
include h

theorem ofRun : f.OfRun := by
  refine ⟨h.line, ?_⟩
  obtain hc | hc := h.cause <;> simp [hc]

theorem cause_ne_illegalInput : f.cause ≠ .illegalInput := by
  obtain hc | hc := h.cause <;> simp [hc]

end Fault.OfTape

namespace Tape

theorem capacity_zeros (n : Nat) : (zeros n).capacity = n + 1 := by
  simp only [zeros, capacity, List.length_nil, List.length_replicate]
  omega

theorem back_fault {t : Tape} {f : Fault} (h : t.back = .error f) : f.OfTape := by
  rcases t with ⟨_ | ⟨l, left⟩, here, right⟩
  · cases h; exact ⟨rfl, Or.inl rfl⟩
  · cases h

theorem forward_fault {t : Tape} {f : Fault} (h : t.forward = .error f) : f.OfTape := by
  rcases t with ⟨left, here, _ | ⟨r, right⟩⟩
  · cases h; exact ⟨rfl, Or.inl rfl⟩
  · cases h

theorem increment_fault {t : Tape} {f : Fault} (h : t.increment = .error f) : f.OfTape := by
  unfold increment at h
  split at h
  · cases h
  · cases h; exact ⟨rfl, Or.inr rfl⟩

theorem decrement_fault {t : Tape} {f : Fault} (h : t.decrement = .error f) : f.OfTape := by
  unfold decrement at h
  split at h
  · cases h
  · cases h; exact ⟨rfl, Or.inr rfl⟩

end Tape

namespace Machine

/-! ## Faults -/

theorem read_refused {m m' : Machine} {r : Request} {f : Fault}
    (h : m.read r = (m', .refused f)) : f.OfRun := by
  rcases read_cases m r with ⟨v, rest, h'⟩ | ⟨-, h'⟩ | ⟨-, h'⟩ | ⟨rest, text, h'⟩ <;>
    rw [h'] at h <;> cases h
  · exact ⟨rfl, by simp⟩
  · exact ⟨rfl, by simp⟩

theorem demand_fail {m : Machine} {r : Request} {f : Fault} (h : (m.demand r).2 = .fail f) :
    f.OfRun := by
  unfold demand at h
  split at h
  · cases h
  · cases h
  · next hr => cases h; exact read_refused hr

theorem withTape_fail {m : Machine} {t : Except Fault Tape} {f : Fault}
    (h : (m.withTape t).2 = .fail f) : t = .error f := by
  cases t <;> cases h; rfl

theorem jump_of_lt {m : Machine} {line : Nat} (h : line < m.program.length) :
    m.jump line = ({ m with program := { m.program with cursor := line } }, .next) := by
  rw [jump, Program.goto_of_lt h]

/-- **An instruction of a well-formed program fails for a reason of its own**: a jump
    never leaves the program. -/
theorem perform_fail {m : Machine} (hp : m.program.WellFormed) {i : Instruction} {line : Nat}
    {f : Fault} (h : (m.perform i line).2 = .fail f) : f.OfRun := by
  cases i with
  | jumpBack =>
    simp only [perform] at h
    split at h
    · next hm => rw [jump_of_lt (Program.loopStart_lt hm)] at h; cases h
    · cases h; exact ⟨rfl, by simp⟩
  | left => exact (Tape.back_fault (withTape_fail h)).ofRun
  | right => exact (Tape.forward_fault (withTape_fail h)).ofRun
  | exec => cases h; exact ⟨rfl, by simp⟩
  | character =>
    simp only [perform] at h
    split at h
    · exact demand_fail h
    · unfold printChar at h
      split at h
      · cases h
      · cases h; exact ⟨rfl, by simp⟩
  | decrement => exact (Tape.decrement_fault (withTape_fail h)).ofRun
  | increment => exact (Tape.increment_fault (withTape_fail h)).ofRun
  | mark =>
    simp only [perform] at h
    split at h
    · split at h
      · next hr => rw [jump_of_lt (hp.loopExit_lt hr)] at h; cases h
      · cases h; exact ⟨rfl, by simp⟩
    · cases h
  | transfer => simp only [perform] at h; split at h <;> cases h
  | clear | printInt | halt => cases h
  | readInt => exact demand_fail h

/-! ## The invariant -/

/-- The machine has `capacity` cells and a well-formed program. -/
structure Sound (capacity : Nat) (m : Machine) : Prop where
  capacity_eq : m.tape.capacity = capacity
  program : m.program.WellFormed

/-- A machine with `capacity` cells that nothing has been asked of yet. -/
inductive Fresh : (capacity : Nat) → Machine → Prop
  | blank {capacity : Nat} {m : Machine} : Machine.blank capacity = .ok m → Fresh capacity m
  | default : Fresh Tape.defaultCapacity default

theorem Fresh.eq {capacity : Nat} {m : Machine} (h : Fresh capacity m) :
    ∃ n, capacity = n + 1 ∧ m = ofTape (.zeros n) := by
  cases h with
  | blank h =>
    cases capacity with
    | zero => cases h
    | succ n => cases h; exact ⟨n, rfl, rfl⟩
  | default => exact ⟨_, rfl, rfl⟩

theorem Fresh.sound {capacity : Nat} {m : Machine} (h : Fresh capacity m) :
    Sound capacity m := by
  obtain ⟨n, rfl, rfl⟩ := h.eq
  exact ⟨Tape.capacity_zeros n, Program.wellFormed_ofSource ""⟩

theorem Fresh.idle {capacity : Nat} {m : Machine} (h : Fresh capacity m) : m.status = .idle := by
  obtain ⟨n, -, rfl⟩ := h.eq
  rfl

theorem stable_sound (capacity : Nat) : Stable (Sound capacity) where
  keeps hk h := ⟨hk.capacity.trans h.capacity_eq, hk.wellFormed h.program⟩
  status _ h := ⟨h.capacity_eq, h.program⟩

namespace Sound
variable {capacity : Nat} {m : Machine} (h : Sound capacity m)
include h

/-- **A sound machine stays sound**, whatever is asked of it. -/
theorem call (c : Call) : Sound capacity (m.call c).1 := by
  cases c with
  | start text =>
    simp only [Machine.call, Machine.start]
    split
    · exact h
    · exact ⟨h.capacity_eq, Program.wellFormed_ofSource text⟩
  | reset =>
    simp only [Machine.call, Machine.reset]
    split
    · exact h
    · exact ⟨(Tape.capacity_clear _).trans h.capacity_eq, h.program⟩
  | enter text => exact ⟨h.capacity_eq, h.program⟩
  | closeInput => exact ⟨h.capacity_eq, h.program⟩
  | execute n => exact (stable_sound capacity).execute h n

theorem calls (cs : List Call) : Sound capacity (m.calls cs).1 := by
  induction cs generalizing m with
  | nil => exact h
  | cons c cs ih => exact ih (h.call c)

/-! ## Faults of runs -/

theorem performed_fail {m' : Machine} {f : Fault} (hf : m.performed = (m', .fail f)) : f.OfRun :=
  perform_fail (m.fetched_keeps.wellFormed h.program) (congrArg Prod.snd hf)

theorem advance_fault {n : Nat} {f : Fault} (hf : (Machine.advance n m).2 = .failed f) :
    f.cause ≠ .internalError := by
  induction n generalizing m with
  | zero => cases hf
  | succ n ih =>
    have hs := (stable_sound capacity).cycle h
    simp only [Machine.advance] at hf
    obtain ⟨m', -, hc | ⟨text, hc⟩ | ⟨r, hc⟩ | hc | ⟨g, hg, hc⟩⟩ := m.cycle_cases <;>
      rw [hc] at hf hs
    · exact ih hs hf
    · cases hf
    · cases hf
    · cases hf
    · cases hf; exact (h.performed_fail hg).cause

theorem execute_fault {n : Nat} {f : Fault} (hf : (m.execute n).2 = .failed f) :
    f.cause ≠ .internalError := by
  rcases m.execute_cases with ⟨-, he⟩ | ⟨-, he⟩ |
    ⟨r, line, -, ⟨m', hr, he⟩ | ⟨-, he⟩ | ⟨m', g, hr, he⟩⟩ <;> rw [he] at hf
  · cases hf
  · exact h.advance_fault hf
  · have hs := (stable_sound capacity).keeps (read_keeps hr) h
    exact ((stable_sound capacity).status _ hs).advance_fault hf
  · cases hf
  · cases hf; exact (read_refused hr).cause

theorem calls_fault {cs : List Call} {f : Fault}
    (hf : .event (.failed f) ∈ (m.calls cs).2) : f.cause ≠ .internalError := by
  induction cs generalizing m with
  | nil => cases hf
  | cons c cs ih =>
    rcases List.mem_cons.1 hf with hf | hf
    · cases c with
      | execute n => exact h.execute_fault (Reply.event.inj hf).symm
      | start text | reset =>
        simp only [Machine.call, Machine.attempt] at hf
        split at hf <;> cases hf
      | enter text | closeInput => cases hf
    · exact ih (h.call c) hf

end Sound

end Machine

end MooCode
