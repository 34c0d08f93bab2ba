/-
  Moo-code — the register is a mailbox with one slot.

  * `Moment`: what happens to a machine at a time, with the machine before and after it: a cycle
    performs an instruction, a read that is waited for is resumed, or a call is made that is not
    a slice.  `Moment.Happens`: it does happen so.
  * `Machine.moments m cs`: the moments of the calls `cs` to `m`, in the order they happen.
    `linked_moments`: each begins where the one before has ended (`Linked`), so that nothing happens
    between them.  `Linked.invariant`: what every moment preserves, the calls preserve.
  * `Moment.Quiet`: no transfer is performed, and no reset clears the register.
    `Happens.register_eq`: then the register stays as it is; `Happens.captures_or_releases`: what a
    transfer does.
  * `Linked.captures_then`, `Linked.exists_captures`: from a transfer that fills the register to the
    next one, and back.
  * `Machine.register_mailbox`: what a transfer puts into the register is what the next one takes
    out of it.
-/
import MooCode.Proofs.Inline

namespace MooCode

/-! ## Moments -/

/-- What is done to a machine. -/
inductive Act where
  /-- A call that is not a slice. -/
  | call (c : Call)
  /-- An attempt to serve the request that is waited for. -/
  | resume
  /-- The cycle that performs the instruction `i`, by itself or as what an execute instruction
      stands for. -/
  | perform (i : Instruction)
  deriving DecidableEq

/-- What is done to a machine, with the machine before and after it. -/
structure Moment where
  before : Machine
  act : Act
  after : Machine
  deriving DecidableEq

/-- The machine is after the moment what the act makes of the machine before it. -/
inductive Moment.Happens : (x : Moment) → Prop
  | call {m : Machine} {c : Call} : (∀ n, c ≠ .execute n) → Happens ⟨m, .call c, (m.call c).1⟩
  | resume {m : Machine} {r : Request} {line : Nat} : m.status = .waiting r line →
      Happens ⟨m, .resume, (m.execute 0).1⟩
  | perform {m : Machine} : m.status = .running → Happens ⟨m, .perform m.upcoming, m.cycle.1⟩

/-- The moments `xs` lead from `m` to `m'`, each from where the one before it has ended. -/
def Linked (m : Machine) : (xs : List Moment) → (m' : Machine) → Prop
  | [], m' => m' = m
  | x :: xs, m' => x.before = m ∧ Linked x.after xs m'

theorem linked_append {m m' : Machine} {xs ys : List Moment} :
    Linked m (xs ++ ys) m' ↔ ∃ s, Linked m xs s ∧ Linked s ys m' := by
  induction xs generalizing m with
  | nil => simp [Linked]
  | cons x xs ih => simp only [List.cons_append, Linked, ih, and_assoc, exists_and_left]

/-- **What every moment preserves, all of them preserve.** -/
theorem Linked.invariant {P : Machine → Prop} {m m' : Machine} {xs : List Moment}
    (h : Linked m xs m') (hx : ∀ x ∈ xs, P x.before → P x.after) (hm : P m) :
    (∀ x ∈ xs, P x.before ∧ P x.after) ∧ P m' := by
  induction xs generalizing m with
  | nil =>
    obtain rfl : m' = m := h
    exact ⟨by simp, hm⟩
  | cons x xs ih =>
    obtain ⟨rfl, hl⟩ := h
    rw [List.forall_mem_cons] at hx ⊢
    have ha := hx.1 hm
    obtain ⟨hxs, hm'⟩ := ih hl hx.2 ha
    exact ⟨⟨⟨hm, ha⟩, hxs⟩, hm'⟩

namespace Machine

/-- The moments of `Machine.advance cycles`. -/
def advanceMoments : (cycles : Nat) → Machine → List Moment
  | 0, _ => []
  | n + 1, m =>
    ⟨m, .perform m.upcoming, m.cycle.1⟩ ::
      match m.cycle with
      | (m, none) => advanceMoments n m
      | (_, some _) => []

/-- The moments of `Machine.execute cycles`. -/
def executeMoments (m : Machine) (cycles : Nat) : List Moment :=
  match m.status with
  | .idle => []
  | .running => advanceMoments cycles m
  | .waiting r _ =>
    ⟨m, .resume, (m.execute 0).1⟩ ::
      match m.read r with
      | (m, .taken) => advanceMoments cycles { m with status := .running }
      | _ => []

/-- The moments of the call `c`. -/
def callMoments (m : Machine) (c : Call) : List Moment :=
  match c with
  | .execute cycles => m.executeMoments cycles
  | c => [⟨m, .call c, (m.call c).1⟩]

/-- The moments of the calls `cs`. -/
def moments (m : Machine) : (cs : List Call) → List Moment
  | [] => []
  | c :: cs => m.callMoments c ++ (m.call c).1.moments cs

/-! ### Nothing happens between them -/

theorem linked_advanceMoments (n : Nat) (m : Machine) :
    Linked m (advanceMoments n m) (advance n m).1 := by
  induction n generalizing m with
  | zero => rfl
  | succ n ih =>
    simp only [advanceMoments, advance]
    rcases m.cycle with ⟨m', _ | e⟩
    · exact ⟨rfl, ih m'⟩
    · exact ⟨rfl, rfl⟩

theorem linked_executeMoments (m : Machine) (n : Nat) :
    Linked m (m.executeMoments n) (m.execute n).1 := by
  rcases m.execute_cases with ⟨hs, hx⟩ | ⟨hs, hx⟩ |
    ⟨r, line, hs, ⟨m', hr, hx⟩ | ⟨hr, hx⟩ | ⟨m', f, hr, hx⟩⟩ <;>
    simp only [executeMoments, hs, hx]
  · rfl
  · exact linked_advanceMoments n m
  · rw [hr]
    exact ⟨rfl, linked_advanceMoments n _⟩
  · rw [hr]
    exact ⟨rfl, rfl⟩
  · rw [hr]
    exact ⟨rfl, rfl⟩

theorem linked_callMoments (m : Machine) (c : Call) :
    Linked m (m.callMoments c) (m.call c).1 := by
  cases c with
  | execute n => exact m.linked_executeMoments n
  | start _ | reset | enter _ | closeInput => exact ⟨rfl, rfl⟩

/-- **The moments of calls lead from the machine to the machine after the calls.** -/
theorem linked_moments (m : Machine) (cs : List Call) : Linked m (m.moments cs) (m.calls cs).1 := by
  induction cs generalizing m with
  | nil => rfl
  | cons c cs ih => exact linked_append.2 ⟨_, m.linked_callMoments c, ih (m.call c).1⟩

theorem advanceMoments_happen {n : Nat} {m : Machine} (hs : m.status = .running) :
    ∀ x ∈ advanceMoments n m, x.Happens := by
  induction n generalizing m with
  | zero => simp [advanceMoments]
  | succ n ih =>
    rw [advanceMoments, List.forall_mem_cons]
    refine ⟨.perform hs, ?_⟩
    rcases hc : m.cycle with ⟨m', _ | e⟩
    · exact ih ((cycle_keeps hc).status.trans hs)
    · simp

theorem executeMoments_happen (m : Machine) (n : Nat) : ∀ x ∈ m.executeMoments n, x.Happens := by
  unfold executeMoments
  split
  · simp
  · next hs => exact advanceMoments_happen hs
  · next hs =>
    rw [List.forall_mem_cons]
    refine ⟨.resume hs, ?_⟩
    split
    · exact advanceMoments_happen rfl
    · simp

/-- **The moments of calls do happen.** -/
theorem moments_happen (m : Machine) (cs : List Call) : ∀ x ∈ m.moments cs, x.Happens := by
  induction cs generalizing m with
  | nil => simp [moments]
  | cons c cs ih =>
    rw [moments, List.forall_mem_append]
    refine ⟨?_, ih (m.call c).1⟩
    cases c with
    | execute n => exact m.executeMoments_happen n
    | start _ | reset | enter _ | closeInput => exact List.forall_mem_singleton.2 (.call (by simp))

/-! ## What happens to the register -/

theorem read_register (m : Machine) (r : Request) : (m.read r).1.register = m.register := by
  rcases read_cases m r with ⟨v, rest, hr⟩ | ⟨-, hr⟩ | ⟨-, hr⟩ | ⟨rest, text, hr⟩ <;> rw [hr]

theorem demand_register (m : Machine) (r : Request) : (m.demand r).1.register = m.register := by
  rw [← m.read_register r, demand]
  rcases m.read r with ⟨m', _ | _ | f⟩ <;> rfl

theorem withTape_register (m : Machine) (t : Except Fault Tape) :
    (m.withTape t).1.register = m.register := by
  cases t <;> rfl

theorem jump_register (m : Machine) (line : Nat) : (m.jump line).1.register = m.register := by
  unfold jump
  split <;> rfl

/-- **No instruction but a transfer changes the register.** -/
theorem perform_register {i : Instruction} (h : i ≠ .transfer) (m : Machine) (line : Nat) :
    (m.perform i line).1.register = m.register := by
  cases i with
  | jumpBack =>
    simp only [perform]
    split
    · exact m.jump_register _
    · rfl
  | left | right | decrement | increment => exact m.withTape_register _
  | exec | clear | printInt | halt => rfl
  | character =>
    simp only [perform]
    split
    · exact m.demand_register _
    · unfold printChar
      split <;> rfl
  | mark =>
    simp only [perform]
    split
    · split
      · exact m.jump_register _
      · rfl
    · rfl
  | transfer => exact absurd rfl h
  | readInt => exact m.demand_register _

theorem settle_register (m : Machine) (line : Nat) (e : Effect) :
    (m.settle line e).1.register = m.register := by
  cases e <;> rfl

/-- The machine after a cycle that performs a transfer. -/
theorem cycle_transfer {m : Machine} (hu : m.upcoming = .transfer) : m.cycle.1 =
    if m.register = 0 then { m.fetched with register := m.tape.here }
    else { m.fetched with tape := m.tape.set m.register, register := 0 } := by
  have hr : m.fetched.register = m.register := rfl
  rw [cycle_eq, performed, hu, perform, hr]
  split <;> rfl

end Machine

namespace Moment

/-- The register is cleared by a reset, which is not possible while a run is on. -/
def Resets (x : Moment) : Prop :=
  x.act = .call .reset ∧ x.before.status = .idle

instance (x : Moment) : Decidable x.Resets :=
  inferInstanceAs (Decidable (_ ∧ _))

/-- No transfer is performed, and the register is not cleared. -/
def Quiet (x : Moment) : Prop :=
  x.act ≠ .perform .transfer ∧ ¬ x.Resets

instance (x : Moment) : Decidable x.Quiet :=
  inferInstanceAs (Decidable (_ ∧ _))

/-- A transfer puts the current cell, which holds `v`, into the empty register. -/
structure Captures (x : Moment) (v : Cell) : Prop where
  act : x.act = .perform .transfer
  empty : x.before.register = 0
  here : x.before.tape.here = v
  register : x.after.register = v
  tape : x.after.tape = x.before.tape

/-- A transfer puts `v`, which is in the register, into the current cell, and empties the
    register. -/
structure Releases (x : Moment) (v : Cell) : Prop where
  act : x.act = .perform .transfer
  full : x.before.register = v
  ne_zero : v ≠ 0
  register : x.after.register = 0
  pointer : x.after.tape.pointer = x.before.tape.pointer
  cells : x.after.tape.cells = x.before.tape.cells.set x.before.tape.pointer v

namespace Happens
variable {x : Moment} (h : x.Happens)
include h

/-- **Without a transfer or a reset, the register stays as it is.** -/
theorem register_eq (hq : x.Quiet) : x.after.register = x.before.register := by
  cases h with
  | @call m c hc =>
    cases c with
    | start text =>
      simp only [Machine.call, Machine.start]
      split <;> rfl
    | reset =>
      by_cases hs : m.status = .idle
      · exact absurd ⟨rfl, hs⟩ hq.2
      · have ha : m.isActive = true := by simp [Machine.isActive, hs]
        simp only [Machine.call, Machine.reset, ha, if_true]
        rfl
    | enter text => rfl
    | closeInput => rfl
    | execute n => exact absurd rfl (hc n)
  | @resume m r line hs =>
    rw [← m.read_register r]
    simp only [Machine.execute, hs]
    rcases m.read r with ⟨m', _ | _ | f⟩ <;> rfl
  | @perform m hs =>
    have hu : m.upcoming ≠ .transfer := fun hu => hq.1 (congrArg Act.perform hu)
    show m.cycle.1.register = m.register
    rw [Machine.cycle_eq, Machine.settle_register]
    exact Machine.perform_register hu m.fetched _

theorem register_of_resets (hr : x.Resets) : x.after.register = 0 := by
  obtain ⟨ha, hs⟩ := hr
  cases h with
  | @call m c hc =>
    obtain rfl : c = .reset := Act.call.inj ha
    have hi : m.isActive = false := by simp [Machine.isActive, show m.status = .idle from hs]
    simp only [Machine.call, Machine.reset, hi]
    rfl
  | resume => cases ha
  | perform => cases ha

/-- **A transfer captures the current cell if the register is empty, and releases what is in the
    register otherwise.** -/
theorem captures_or_releases (ha : x.act = .perform .transfer) :
    (x.before.register = 0 → x.Captures x.before.tape.here) ∧
      (x.before.register ≠ 0 → x.Releases x.before.register) := by
  cases h with
  | call => cases ha
  | resume => cases ha
  | @perform m hs =>
    have hc := Machine.cycle_transfer (Act.perform.inj ha)
    constructor
    · intro h0
      have h0 : m.register = 0 := h0
      rw [if_pos h0] at hc
      have ht : m.cycle.1.tape = m.tape := by
        rw [hc]
        rfl
      exact ⟨ha, h0, rfl, congrArg Machine.register hc, ht⟩
    · intro h0
      have h0 : m.register ≠ 0 := h0
      rw [if_neg h0] at hc
      have ht : m.cycle.1.tape = m.tape.set m.register := congrArg Machine.tape hc
      have hp : m.cycle.1.tape.pointer = m.tape.pointer := by
        rw [ht]
        rfl
      have hcs := (congrArg Tape.cells ht).trans (m.tape.cells_set m.register)
      exact ⟨ha, rfl, h0, congrArg Machine.register hc, hp, hcs⟩

theorem sound {capacity : Nat} (hm : Machine.Sound capacity x.before) :
    Machine.Sound capacity x.after := by
  cases h with
  | call => exact hm.call _
  | resume => exact (Machine.stable_sound capacity).execute hm 0
  | perform => exact (Machine.stable_sound capacity).cycle hm

/-- A transfer is performed where it is written, and where an execute instruction finds a nine. -/
theorem transfer_iff {capacity : Nat} (hm : Machine.Sound capacity x.before) {i : Instruction}
    (hi : x.act = .perform i) : i = .transfer ↔
      x.before.program.instruction? x.before.program.cursor = some .transfer ∨
      x.before.program.instruction? x.before.program.cursor = some .exec ∧
        x.before.tape.here = 9 := by
  have hp := hm.program.instruction?_cursor
  cases h with
  | call => cases hi
  | resume => cases hi
  | @perform m _ =>
    obtain rfl : m.upcoming = i := Act.perform.inj hi
    have hc : Instruction.code? .transfer = some 9 := rfl
    rw [hp, Machine.upcoming, Instruction.resolve_eq_iff hc, Option.some_inj, Option.some_inj]
    cases m.program.peek <;> simp

end Happens

end Moment

/-! ## From one transfer to the next -/

section
variable {m m' : Machine} {xs : List Moment} (hl : Linked m xs m') (hx : ∀ x ∈ xs, x.Happens)
include hl hx

theorem Linked.register_eq (hq : ∀ x ∈ xs, x.Quiet) :
    (∀ x ∈ xs, x.before.register = m.register ∧ x.after.register = m.register) ∧
      m'.register = m.register := by
  have hP : ∀ x ∈ xs, x.before.register = m.register → x.after.register = m.register :=
    fun x hm hb => ((hx x hm).register_eq (hq x hm)).trans hb
  exact hl.invariant (P := fun s => s.register = m.register) hP rfl

/-- What a transfer captures stays in the register until the next one, which releases it. -/
theorem Linked.captures_then {x : Moment} {before between later : List Moment}
    (he : xs = before ++ x :: (between ++ later)) (ha : x.act = .perform .transfer)
    (h0 : x.before.register = 0) (hq : ∀ y ∈ between, y.Quiet) :
    let v := x.before.tape.here
    x.Captures v ∧ (∀ y ∈ between, y.before.register = v ∧ y.after.register = v) ∧
    (later = [] → m'.register = v) ∧
    ∀ z rest, later = z :: rest → z.act = .perform .transfer →
      (v ≠ 0 → z.Releases v) ∧ (v = 0 → z.Captures z.before.tape.here) := by
  rw [he] at hl hx
  obtain ⟨s, -, rfl, hl⟩ := linked_append.1 hl
  obtain ⟨s', hb, hl⟩ := linked_append.1 hl
  simp only [List.forall_mem_append, List.forall_mem_cons] at hx
  obtain ⟨-, hxx, hxb, hxl⟩ := hx
  have hc := (hxx.captures_or_releases ha).1 h0
  obtain ⟨hkeep, hs'⟩ := hb.register_eq hxb hq
  rw [hc.register] at hkeep hs'
  refine ⟨hc, hkeep, ?_, ?_⟩
  · rintro rfl
    obtain rfl : m' = s' := hl
    exact hs'
  · rintro z rest rfl hz
    obtain ⟨rfl, -⟩ := hl
    have hxz := (hxl z List.mem_cons_self).captures_or_releases hz
    rw [hs'] at hxz
    exact ⟨hxz.2, hxz.1⟩

/-- What is in the register has been captured by the last transfer, if it was empty at first. -/
theorem Linked.exists_captures (h0 : m.register = 0) (hne : m'.register ≠ 0) :
    ∃ earlier x between, xs = earlier ++ x :: between ∧ x.Captures m'.register ∧
      ∀ y ∈ between, y.Quiet := by
  induction xs using List.reverseRecOn generalizing m' with
  | nil =>
    obtain rfl : m' = m := hl
    exact absurd h0 hne
  | append_singleton xs y ih =>
    obtain ⟨s, hs, rfl, rfl⟩ := linked_append.1 hl
    rw [List.forall_mem_append, List.forall_mem_singleton] at hx
    by_cases ht : y.act = .perform .transfer
    · -- a transfer that does not empty the register has found it empty
      have hy := hx.2.captures_or_releases ht
      by_cases hb : y.before.register = 0
      · have hc := hy.1 hb
        exact ⟨xs, y, [], rfl, hc.register.symm ▸ hc, by simp⟩
      · exact absurd (hy.2 hb).register hne
    · by_cases hr : y.Resets
      · exact absurd (hx.2.register_of_resets hr) hne
      · have hq : y.Quiet := ⟨ht, hr⟩
        have he := hx.2.register_eq hq
        rw [he] at hne ⊢
        obtain ⟨earlier, x, between, rfl, hc, hb⟩ := ih hs hx.1 hne
        refine ⟨earlier, x, between ++ [y], by simp, hc, ?_⟩
        rw [List.forall_mem_append, List.forall_mem_singleton]
        exact ⟨hb, hq⟩

end

namespace Machine

/-- **The register is a mailbox with one slot.**  Let `xs` be all that happens in the course of any
    calls to a new machine, in any number of runs.
    * A transfer that finds the register empty captures the current cell, which holds `v`.
    * Until the next transfer, and as long as there is no reset, the register holds `v`, whatever
      instructions are performed, events come up, runs are given up, wait or begin.
    * The next transfer releases `v` into the cell that is then current, changes no other cell, and
      leaves the register empty; unless `v` is zero, when it finds the register still empty and
      captures again.
    * Whatever a transfer releases, the last transfer before it has captured. -/
theorem register_mailbox {capacity : Nat} {m : Machine} (hm : Fresh capacity m) (cs : List Call) :
    let xs := m.moments cs
    (Linked m xs (m.calls cs).1 ∧ (∀ x ∈ xs, x.Happens) ∧
      ∀ x ∈ xs, ∀ i, x.act = .perform i → (i = .transfer ↔
        x.before.program.instruction? x.before.program.cursor = some .transfer ∨
        x.before.program.instruction? x.before.program.cursor = some .exec ∧
          x.before.tape.here = 9)) ∧
    (∀ before x between later, xs = before ++ x :: (between ++ later) →
      x.act = .perform .transfer → x.before.register = 0 → (∀ y ∈ between, y.Quiet) →
      let v := x.before.tape.here
      x.Captures v ∧ (∀ y ∈ between, y.before.register = v ∧ y.after.register = v) ∧
      (later = [] → (m.calls cs).1.register = v) ∧
      ∀ z rest, later = z :: rest → z.act = .perform .transfer →
        (v ≠ 0 → z.Releases v) ∧ (v = 0 → z.Captures z.before.tape.here)) ∧
    ∀ before z later v, xs = before ++ z :: later → z.Releases v →
      ∃ earlier x between, before = earlier ++ x :: between ∧ x.Captures v ∧
        ∀ y ∈ between, y.Quiet := by
  intro xs
  have hl : Linked m xs (m.calls cs).1 := m.linked_moments cs
  have hx : ∀ x ∈ xs, x.Happens := m.moments_happen cs
  refine ⟨⟨hl, hx, ?_⟩, fun _ _ _ _ => hl.captures_then hx, ?_⟩
  · intro x hmem i
    have hs := (hl.invariant (fun y hy => (hx y hy).sound) hm.sound).1 x hmem
    exact (hx x hmem).transfer_iff hs.1
  · intro before z later v he hz
    rw [he] at hl hx
    obtain ⟨s, hb, rfl, -⟩ := linked_append.1 hl
    have h0 : m.register = 0 := by
      obtain ⟨n, -, rfl⟩ := hm.eq
      rfl
    have hne : z.before.register ≠ 0 := by
      rw [hz.full]
      exact hz.ne_zero
    rw [← hz.full]
    exact hb.exists_captures (List.forall_mem_append.1 hx).1 h0 hne

/-- A nine that stands for a transfer is captured by it, outlives the run, which fails, and is
    released in the next run. -/
theorem register_mailbox_two_runs :
    let m := ofTape (.zeros 1)
    let cs := [.enter "9", .start "oom mOO mOo", .execute 9, .start "moO MMM", .execute 9]
    let xs := m.moments cs
    xs.map Moment.act =
        [.call (.enter "9"), .call (.start "oom mOO mOo"), .perform .readInt, .perform .transfer,
          .perform .left, .call (.start "moO MMM"), .perform .right, .perform .transfer,
          .perform .halt] ∧
      (∃ before x between z later, xs = before ++ x :: (between ++ z :: later) ∧ x.Captures 9 ∧
        between.length = 3 ∧ (∀ y ∈ between, y.before.register = 9 ∧ y.after.register = 9) ∧
        z.Releases 9) ∧
      (m.calls cs).1.tape.cells = [9, 9] := by
  intro m cs xs
  have hm : Fresh 2 m := .blank rfl
  refine ⟨by decide, ?_, by decide⟩
  have hs : xs.take 3 ++ xs.get ⟨3, by decide⟩ ::
      ((xs.drop 4).take 3 ++ xs.get ⟨7, by decide⟩ :: xs.drop 8) = xs := by decide
  obtain ⟨-, h, -⟩ := register_mailbox hm cs
  obtain ⟨hc, hb, -, hz⟩ := h _ _ _ _ hs.symm (by decide) (by decide) (by decide)
  exact ⟨_, _, _, _, _, hs.symm, hc, by decide, hb, (hz _ _ rfl (by decide)).1 (by decide)⟩

end Machine

end MooCode
