/-
  Moo-code — how far a slice reaches.

  * `Touch`: what an instruction can do to a tape: write to the current cell, or move by one cell.
  * `Tape.SameView t u`: an instruction sees no difference between `t` and `u`, which have the same
    current cell in the same place of rows of the same length.
  * `Machine.Touches f m`: on all tapes that look like that of `m`, the step `f` comes to the same
    and touches the tape in the same way.  `perform_touches`, `cycle_touches`: so do instructions
    and cycles.
  * `Tape.Within n t t'`: from `t` to `t'` the pointer has gone `n` cells at most, and no cell further
    away has changed.  `advance_within`, `execute_within`: a slice of `n` cycles reaches `n` cells far.
  * `Tape.Agree W t u`, `Machine.Agree W m m'`: there is no difference but in cells outside of `W`.
  * `Machine.execute_local`: neither does a slice change what is further away, nor does it depend
    on it.
-/
import MooCode.Proofs.Cycle

namespace MooCode

/-- The distance between the indices `p` and `j` is at most `n`. -/
def Near (n p j : Nat) : Prop :=
  p ≤ j + n ∧ j ≤ p + n

instance (n p j : Nat) : Decidable (Near n p j) :=
  inferInstanceAs (Decidable (_ ∧ _))

theorem near_self (n p : Nat) : Near n p p :=
  ⟨Nat.le_add_right p n, Nat.le_add_right p n⟩

theorem Near.trans {a b p q j : Nat} (h : Near a p q) (h' : Near b q j) : Near (a + b) p j := by
  unfold Near at *
  omega

theorem Near.mono {a b p j : Nat} (h : Near a p j) (hab : a ≤ b) : Near b p j := by
  unfold Near at *
  omega

/-! ## What instructions do to a tape -/

/-- What an instruction can do to a tape.  One that leaves the tape alone writes what is there. -/
inductive Touch where
  /-- Write `v` to the current cell. -/
  | write (v : Cell)
  /-- Move one cell to the left, if there is one. -/
  | left
  /-- Move one cell to the right, if there is one. -/
  | right

/-- The tape after a touch. -/
def Touch.apply : (a : Touch) → (t : Tape) → Tape
  | write v, t => t.set v
  | left, t => t.back.toOption.getD t
  | right, t => t.forward.toOption.getD t

namespace Tape

theorem apply_left (t : Tape) :
    (Touch.left.apply t).cells = t.cells ∧ (Touch.left.apply t).pointer = t.pointer - 1 := by
  rcases t with ⟨_ | ⟨l, left⟩, here, right⟩
  · exact ⟨rfl, rfl⟩
  · simp [Touch.apply, back, Except.toOption, cells, pointer]

theorem apply_right (t : Tape) : (Touch.right.apply t).cells = t.cells ∧
    (Touch.right.apply t).pointer = min (t.pointer + 1) (t.capacity - 1) := by
  rcases t with ⟨left, here, _ | ⟨r, right⟩⟩
  · simp [Touch.apply, forward, Except.toOption, pointer, capacity]
  · simp [Touch.apply, forward, Except.toOption, cells, pointer, capacity]

theorem capacity_apply (a : Touch) (t : Tape) : (a.apply t).capacity = t.capacity := by
  cases a with
  | write v => rfl
  | left => rw [← length_cells, (apply_left t).1, length_cells]
  | right => rw [← length_cells, (apply_right t).1, length_cells]

/-! ### What it sees of the tape -/

/-- The tapes have the same current cell, in the same place of rows of the same length. -/
structure SameView (t u : Tape) : Prop where
  here : t.here = u.here
  pointer : t.pointer = u.pointer
  capacity : t.capacity = u.capacity

theorem SameView.refl (t : Tape) : SameView t t :=
  ⟨rfl, rfl, rfl⟩

namespace SameView
variable {t u : Tape} (h : SameView t u)
include h

theorem set_here : u.set t.here = u := by
  rw [h.here]
  rfl

theorem back : (∃ f, t.back = .error f ∧ u.back = .error f) ∨
    ∃ t' u', t.back = .ok t' ∧ u.back = .ok u' := by
  have hp := h.pointer
  rcases t with ⟨_ | ⟨l, left⟩, here, right⟩ <;> rcases u with ⟨_ | ⟨l', left'⟩, here', right'⟩
  · exact Or.inl ⟨_, rfl, rfl⟩
  · simp [Tape.pointer] at hp
  · simp [Tape.pointer] at hp
  · exact Or.inr ⟨_, _, rfl, rfl⟩

theorem forward : (∃ f, t.forward = .error f ∧ u.forward = .error f) ∨
    ∃ t' u', t.forward = .ok t' ∧ u.forward = .ok u' := by
  have hp := h.pointer
  have hc := h.capacity
  rcases t with ⟨left, here, _ | ⟨r, right⟩⟩ <;> rcases u with ⟨left', here', _ | ⟨r', right'⟩⟩
  · exact Or.inl ⟨_, rfl, rfl⟩
  · simp_all [Tape.pointer, Tape.capacity]
  · simp_all [Tape.pointer, Tape.capacity]
  · exact Or.inr ⟨_, _, rfl, rfl⟩

end SameView

/-! ### How far it reaches -/

/-- From `t` to `t'` the pointer has gone `n` cells at most, and no cell further away has
    changed. -/
structure Within (n : Nat) (t t' : Tape) : Prop where
  pointer : Near n t.pointer t'.pointer
  cells : ∀ j, ¬ Near n t.pointer j → t'.cells[j]? = t.cells[j]?

theorem within_self (n : Nat) (t : Tape) : Within n t t :=
  ⟨near_self n _, fun _ _ => rfl⟩

theorem Within.trans {a b : Nat} {t₁ t₂ t₃ : Tape} (h : Within a t₁ t₂) (h' : Within b t₂ t₃) :
    Within (a + b) t₁ t₃ := by
  refine ⟨h.pointer.trans h'.pointer, fun j hj => ?_⟩
  rw [h'.cells j fun hn => hj (h.pointer.trans hn),
    h.cells j fun hn => hj (hn.mono (Nat.le_add_right a b))]

theorem within_set (t : Tape) (v : Cell) : Within 0 t (t.set v) := by
  refine ⟨near_self 0 t.pointer, fun j hj => ?_⟩
  have hne : t.pointer ≠ j := by
    rintro rfl
    exact hj (near_self 0 _)
  rw [cells_set, List.getElem?_set_ne hne]

/-- A touch reaches one cell far. -/
theorem within_apply (a : Touch) (t : Tape) : Within 1 t (a.apply t) := by
  have hlt := t.pointer_lt_capacity
  cases a with
  | write v => exact (within_set t v).trans (within_self 1 _)
  | left =>
    obtain ⟨hc, hp⟩ := t.apply_left
    refine ⟨?_, fun j _ => by rw [hc]⟩
    rw [hp]
    unfold Near
    omega
  | right =>
    obtain ⟨hc, hp⟩ := t.apply_right
    refine ⟨?_, fun j _ => by rw [hc]⟩
    rw [hp]
    unfold Near
    omega

/-! ### Tapes that differ elsewhere -/

/-- The tapes differ only in cells outside of `W`. -/
structure Agree (W : Nat → Prop) (t u : Tape) : Prop where
  pointer : t.pointer = u.pointer
  capacity : t.capacity = u.capacity
  cells : ∀ j, W j → t.cells[j]? = u.cells[j]?

namespace Agree
variable {W : Nat → Prop} {t u : Tape} (h : Agree W t u)
include h

theorem sameView (hp : W t.pointer) : SameView t u := by
  refine ⟨?_, h.pointer, h.capacity⟩
  have hc := h.cells _ hp
  rw [cells_pointer, h.pointer, cells_pointer] at hc
  exact Option.some.inj hc

/-- What touches both does not make a difference. -/
theorem apply (a : Touch) : Agree W (a.apply t) (a.apply u) := by
  have hcap : (a.apply t).capacity = (a.apply u).capacity := by
    rw [capacity_apply, capacity_apply, h.capacity]
  cases a with
  | write v =>
    refine ⟨h.pointer, hcap, fun j hj => ?_⟩
    simp only [Touch.apply, cells_set, List.getElem?_set, length_cells, h.pointer, h.capacity,
      h.cells j hj]
  | left =>
    refine ⟨?_, hcap, fun j hj => ?_⟩
    · rw [t.apply_left.2, u.apply_left.2, h.pointer]
    · rw [t.apply_left.1, u.apply_left.1, h.cells j hj]
  | right =>
    refine ⟨?_, hcap, fun j hj => ?_⟩
    · rw [t.apply_right.2, u.apply_right.2, h.pointer, h.capacity]
    · rw [t.apply_right.1, u.apply_right.1, h.cells j hj]

end Agree

end Tape

namespace Machine

/-! ## Instructions -/

/-- The machine with another tape. -/
def onTape (m : Machine) (t : Tape) : Machine :=
  { m with tape := t }

/-- On all tapes that look like that of `m`, the step `f` comes to the same and touches the tape in
    the same way. -/
def Touches {α : Type} (f : Machine → Machine × α) (m : Machine) : Prop :=
  ∃ a : Touch, ∀ u, m.tape.SameView u → f (m.onTape u) = ((f m).1.onTape (a.apply u), (f m).2)

/-- A step that leaves the tape alone. -/
theorem touches_of_still {α : Type} {f : Machine → Machine × α} {m : Machine}
    (h : ∀ u, m.tape.SameView u → f (m.onTape u) = ((f m).1.onTape u, (f m).2)) :
    Touches f m := by
  refine ⟨.write m.tape.here, fun u hu => ?_⟩
  rw [Touch.apply, hu.set_here]
  exact h u hu

section
variable (m : Machine)

/-- What is read does not depend on the tape, and is written to the current cell. -/
theorem read_onTape {u : Tape} (hu : m.tape.here = u.here) (r : Request) : (m.onTape u).read r =
    ((m.read r).1.onTape (u.set (m.read r).1.tape.here), (m.read r).2) := by
  have hm : m.onTape u = m.onTape (u.set m.tape.here) := by rw [hu]; rfl
  rw [hm]
  exact read_map (fun x => x.onTape (u.set x.tape.here)) rfl rfl (fun _ => rfl)
    (fun _ _ => rfl) r

theorem read_touches (r : Request) : Touches (·.read r) m :=
  ⟨.write (m.read r).1.tape.here, fun _ hu => m.read_onTape hu.here r⟩

theorem demand_touches (r : Request) : Touches (·.demand r) m := by
  refine ⟨.write (m.read r).1.tape.here, fun u hu => ?_⟩
  simp only [demand, read_onTape m hu.here]
  rcases m.read r with ⟨m', _ | _ | f⟩ <;> rfl

theorem jump_onTape (u : Tape) (line : Nat) :
    (m.onTape u).jump line = ((m.jump line).1.onTape u, (m.jump line).2) := by
  have hp : (m.onTape u).program = m.program := rfl
  rw [jump, jump, hp]
  rcases m.program.goto line with _ | p <;> rfl

/-- **What an instruction comes to depends on the tape only through what it sees there**, and so
    does what it does to the tape. -/
theorem perform_touches (i : Instruction) (line : Nat) : Touches (·.perform i line) m := by
  have hp : ∀ u, (m.onTape u).program = m.program := fun _ => rfl
  have ht : ∀ u, (m.onTape u).tape = u := fun _ => rfl
  have hr : ∀ u, (m.onTape u).register = m.register := fun _ => rfl
  cases i with
  | jumpBack =>
    refine touches_of_still fun u _ => ?_
    simp only [perform, hp]
    rcases m.program.loopStart line with _ | mark
    · rfl
    · exact jump_onTape m u mark
  | left =>
    refine ⟨.left, fun u hu => ?_⟩
    simp only [perform, ht, Touch.apply]
    rcases hu.back with ⟨f, h, h'⟩ | ⟨t, t', h, h'⟩ <;> rw [h, h'] <;> rfl
  | right =>
    refine ⟨.right, fun u hu => ?_⟩
    simp only [perform, ht, Touch.apply]
    rcases hu.forward with ⟨f, h, h'⟩ | ⟨t, t', h, h'⟩ <;> rw [h, h'] <;> rfl
  | exec | halt => exact touches_of_still fun _ _ => rfl
  | character =>
    by_cases h0 : m.tape.here = 0
    · obtain ⟨a, ha⟩ := demand_touches m .char
      refine ⟨a, fun u hu => ?_⟩
      simp only [perform, ht, ← hu.here, h0, if_true]
      exact ha u hu
    · refine touches_of_still fun u hu => ?_
      simp only [perform, ht, ← hu.here, h0, if_false, printChar]
      rcases Cell.toChar? m.tape.here with _ | c <;> rfl
  | decrement =>
    rcases hv : Cell.pred? m.tape.here with _ | v
    · refine touches_of_still fun u hu => ?_
      simp only [perform, ht, Tape.decrement, ← hu.here, hv]
      rfl
    · refine ⟨.write v, fun u hu => ?_⟩
      simp only [perform, ht, Tape.decrement, ← hu.here, hv]
      rfl
  | increment =>
    rcases hv : Cell.succ? m.tape.here with _ | v
    · refine touches_of_still fun u hu => ?_
      simp only [perform, ht, Tape.increment, ← hu.here, hv]
      rfl
    · refine ⟨.write v, fun u hu => ?_⟩
      simp only [perform, ht, Tape.increment, ← hu.here, hv]
      rfl
  | mark =>
    refine touches_of_still fun u hu => ?_
    by_cases h0 : m.tape.here = 0
    · simp only [perform, ht, hp, ← hu.here, h0, if_true]
      rcases m.program.loopExit line with _ | resume
      · rfl
      · exact jump_onTape m u resume
    · simp only [perform, ht, ← hu.here, h0, if_false]
  | clear => exact ⟨.write 0, fun _ _ => rfl⟩
  | transfer =>
    by_cases h0 : m.register = 0
    · refine touches_of_still fun u hu => ?_
      simp only [perform, ht, hr, ← hu.here, h0, if_true]
      rfl
    · refine ⟨.write m.register, fun u _ => ?_⟩
      simp only [perform, hr, h0, if_false]
      rfl
  | printInt =>
    refine touches_of_still fun u hu => ?_
    simp only [perform, ht, ← hu.here]
  | readInt => exact demand_touches m .integer

/-- **So does a cycle.** -/
theorem cycle_touches : Touches cycle m := by
  obtain ⟨a, ha⟩ := perform_touches m.fetched m.upcoming m.program.cursor
  refine ⟨a, fun u hu => ?_⟩
  have hup : (m.onTape u).upcoming = m.upcoming :=
    congrArg m.program.peek.resolve hu.here.symm
  have hperf : (m.onTape u).performed = (m.performed.1.onTape (a.apply u), m.performed.2) := by
    rw [performed, hup]
    exact ha u hu
  rw [cycle_eq, cycle_eq, hperf]
  cases m.performed.2 <;> rfl

end

namespace Touches
variable {α : Type} {f : Machine → Machine × α} {m : Machine} (h : Touches f m)
include h

theorem exists_touch : ∃ a : Touch, (f m).1.tape = a.apply m.tape ∧
    ∀ u, m.tape.SameView u → f (m.onTape u) = ((f m).1.onTape (a.apply u), (f m).2) := by
  obtain ⟨a, ha⟩ := h
  have hm := congrArg (fun x => x.1.tape) (ha m.tape (.refl _))
  exact ⟨a, hm, ha⟩

theorem within : m.tape.Within 1 (f m).1.tape := by
  obtain ⟨a, ht, -⟩ := h.exists_touch
  rw [ht]
  exact Tape.within_apply a m.tape

theorem agree {W : Nat → Prop} {u : Tape} (hp : W m.tape.pointer) (hu : m.tape.Agree W u) :
    ∃ v, f (m.onTape u) = ((f m).1.onTape v, (f m).2) ∧ (f m).1.tape.Agree W v := by
  obtain ⟨a, ht, ha⟩ := h.exists_touch
  refine ⟨a.apply u, ha u (hu.sameView hp), ?_⟩
  rw [ht]
  exact hu.apply a

end Touches

/-! ## Slices -/

/-- **A slice of `n` cycles reaches `n` cells far.** -/
theorem advance_within (n : Nat) (m : Machine) : m.tape.Within n (advance n m).1.tape := by
  induction n generalizing m with
  | zero => exact Tape.within_self 0 m.tape
  | succ n ih =>
    have h := m.cycle_touches.within
    simp only [advance]
    rcases hc : m.cycle with ⟨m₁, _ | e⟩ <;> rw [hc] at h <;> rw [Nat.add_comm n 1]
    · exact h.trans (ih m₁)
    · exact h.trans (Tape.within_self n m₁.tape)

theorem advance_agree {W : Nat → Prop} {n : Nat} {m : Machine} {u : Tape}
    (hW : ∀ j, Near n m.tape.pointer j → W j) (hu : m.tape.Agree W u) :
    ∃ v, advance n (m.onTape u) = ((advance n m).1.onTape v, (advance n m).2) ∧
      (advance n m).1.tape.Agree W v := by
  induction n generalizing m u with
  | zero => exact ⟨u, rfl, hu⟩
  | succ n ih =>
    have hr := m.cycle_touches.within
    obtain ⟨v, hv, ha⟩ := m.cycle_touches.agree (hW _ (near_self _ _)) hu
    simp only [advance, hv]
    rcases hc : m.cycle with ⟨m₁, _ | e⟩ <;> rw [hc] at hr ha
    · refine ih (fun j hj => hW j ?_) ha
      rw [Nat.add_comm n 1]
      exact hr.pointer.trans hj
    · exact ⟨v, rfl, ha⟩

theorem read_within (m : Machine) (r : Request) : m.tape.Within 0 (m.read r).1.tape := by
  have h := congrArg (fun x => x.1.tape) (m.read_onTape (u := m.tape) rfl r)
  have ht : (m.read r).1.tape = m.tape.set (m.read r).1.tape.here := h
  rw [ht]
  exact m.tape.within_set _

theorem execute_within (m : Machine) (n : Nat) : m.tape.Within n (m.execute n).1.tape := by
  rcases hs : m.status with _ | _ | ⟨r, line⟩
  · simp only [execute, hs]
    exact Tape.within_self n m.tape
  · simp only [execute, hs]
    exact advance_within n m
  · -- the read does not count, since it does not move
    have h : ∀ t, (m.read r).1.tape.Within n t → m.tape.Within n t := by
      intro t ht
      have h := (m.read_within r).trans ht
      rwa [Nat.zero_add] at h
    simp only [execute, hs]
    rcases hr : m.read r with ⟨m₁, _ | _ | f⟩ <;> rw [hr] at h
    · exact h _ (advance_within n { m₁ with status := .running })
    · exact h _ (Tape.within_self n m₁.tape)
    · exact h _ (Tape.within_self n m₁.tape)

theorem execute_agree {W : Nat → Prop} {n : Nat} {m : Machine} {u : Tape}
    (hW : ∀ j, Near n m.tape.pointer j → W j) (hu : m.tape.Agree W u) :
    ∃ v, (m.onTape u).execute n = ((m.execute n).1.onTape v, (m.execute n).2) ∧
      (m.execute n).1.tape.Agree W v := by
  have hst : (m.onTape u).status = m.status := rfl
  rcases hs : m.status with _ | _ | ⟨r, line⟩
  · simp only [execute, hst, hs]
    exact ⟨u, rfl, hu⟩
  · simp only [execute, hst, hs]
    exact advance_agree hW hu
  · have hp := m.read_within r
    obtain ⟨v, hv, ha⟩ := (m.read_touches r).agree (hW _ (near_self _ _)) hu
    simp only [execute, hst, hs, hv]
    rcases hr : m.read r with ⟨m₁, _ | _ | f⟩ <;> rw [hr] at hp ha
    · refine advance_agree (m := { m₁ with status := .running }) (fun j hj => hW j ?_) ha
      rw [← Nat.zero_add n]
      exact hp.pointer.trans hj
    · exact ⟨v, rfl, ha⟩
    · exact ⟨v, rfl, ha⟩

/-! ## Machines that differ elsewhere -/

/-- The machines differ only in cells outside of `W`. -/
structure Agree (W : Nat → Prop) (m m' : Machine) : Prop where
  tape : m.tape.Agree W m'.tape
  register : m.register = m'.register
  program : m.program = m'.program
  status : m.status = m'.status
  input : m.input = m'.input
  closed : m.closed = m'.closed

theorem Agree.eq_onTape {W : Nat → Prop} {m m' : Machine} (h : m.Agree W m') :
    m' = m.onTape m'.tape := by
  rcases m with ⟨t, r, p, s, i, c⟩
  rcases m' with ⟨t', r', p', s', i', c'⟩
  obtain ⟨-, rfl, rfl, rfl, rfl, rfl⟩ := h
  rfl

/-- **A slice of `n` cycles is confined to the cells at most `n` away from the pointer.**  No cell
    further away changes, and the pointer goes no further.  Two machines that differ only in cells
    further away come to the same event, and still differ only in those cells. -/
theorem execute_local (m : Machine) (n : Nat) :
    let p := m.tape.pointer
    (∀ j, ¬ Near n p j → (m.execute n).1.tape.cells[j]? = m.tape.cells[j]?) ∧
    Near n p (m.execute n).1.tape.pointer ∧
    ∀ m', m.Agree (Near n p) m' → (m'.execute n).2 = (m.execute n).2 ∧
      (m.execute n).1.Agree (Near n p) (m'.execute n).1 := by
  intro p
  have hw := m.execute_within n
  refine ⟨hw.cells, hw.pointer, fun m' h => ?_⟩
  obtain ⟨v, hv, ha⟩ := execute_agree (fun _ hj => hj) h.tape
  rw [h.eq_onTape, hv]
  exact ⟨rfl, ha, rfl, rfl, rfl, rfl, rfl⟩

/-- A slice of two cycles that prints what it comes to in the second, on tapes that differ in the
    cells after that. -/
theorem execute_local_far_cells :
    let m : Machine := ⟨⟨[], 1, [5, 7, 9]⟩, 0, .ofSource "moO OOM", .running, [], false⟩
    let m' := m.onTape ⟨[], 1, [5, 7, -2]⟩
    m.Agree (Near 2 0) m' ∧ (m.execute 2).2 = .print "5" ∧ (m'.execute 2).2 = (m.execute 2).2 ∧
      (m'.execute 2).1.tape.pointer = 1 ∧ (m.execute 2).1.tape.cells[3]? = some 9 ∧
      (m.execute 2).1.Agree (Near 2 0) (m'.execute 2).1 := by
  intro m m'
  have h : m.Agree (Near 2 0) m' := by
    refine ⟨⟨rfl, rfl, ?_⟩, rfl, rfl, rfl, rfl, rfl⟩
    rintro (_ | _ | _ | j) hj
    · rfl
    · rfl
    · rfl
    · unfold Near at hj
      omega
  obtain ⟨hc, -, ha⟩ := execute_local m 2
  obtain ⟨he, hm⟩ := ha m' h
  exact ⟨h, by decide, he, by decide, hc 3 (by decide), hm⟩

end Machine

end MooCode
