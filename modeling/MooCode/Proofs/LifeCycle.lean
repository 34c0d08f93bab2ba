/-
  Moo-code — when a run is on.

  * `Machine.exchanges m cs`: the calls `cs` to `m`, each with its answer.  One that is
    answered `begins` a run, and one whose answer is a final event `ends` it.
  * `call_isActive`: what one call does to whether a run is on, and `begun_eq_ended`: of the runs
    begun, all are over but the one that is on.
  * `Inserts m xs`: the marked calls among `xs` are all refused because a run is on.
    `Inserts.calls`: without them, everything else is as it is with them.
  * `Machine.life_cycle`: a run is on from its beginning to its first final event.
-/
import MooCode.Proofs.Schedules

namespace MooCode

/-- Whether the call is possible only while no run is on. -/
def Call.needsIdle : Call → Bool
  | start _ | reset => true
  | _ => false

/-- A call and its answer. -/
structure Exchange where
  call : Call
  reply : Reply
  deriving DecidableEq

/-- Whether a run is begun. -/
def Exchange.begins : Exchange → Bool
  | ⟨.start _, .done⟩ => true
  | _ => false

/-- Whether a run comes to its final event. -/
def Exchange.ends (x : Exchange) : Bool :=
  match x.reply with
  | .event e => e.isFinal
  | _ => false

namespace Machine

/-- The calls `cs` to `m`, each with its answer. -/
def exchanges (m : Machine) (cs : List Call) : List Exchange :=
  List.zipWith Exchange.mk cs (m.calls cs).2

section
variable {m m' : Machine} {c : Call} {r : Reply}

theorem calls_cons (h : m.call c = (m', r)) (cs : List Call) :
    m.calls (c :: cs) = ((m'.calls cs).1, r :: (m'.calls cs).2) := by
  simp only [calls, h]

theorem exchanges_cons (h : m.call c = (m', r)) (cs : List Call) :
    m.exchanges (c :: cs) = ⟨c, r⟩ :: m'.exchanges cs := by
  simp only [exchanges, calls_cons h, List.zipWith_cons_cons]

end

theorem exchanges_eq_append {m : Machine} {cs : List Call} {xs ys : List Exchange}
    (h : m.exchanges cs = xs ++ ys) : ∃ cs₁ cs₂, cs = cs₁ ++ cs₂ ∧ m.exchanges cs₁ = xs ∧
      (m.calls cs₁).1.exchanges cs₂ = ys := by
  induction xs generalizing m cs with
  | nil => exact ⟨[], cs, rfl, rfl, h⟩
  | cons x xs ih =>
    cases cs with
    | nil => cases h
    | cons c cs =>
      rcases hc : m.call c with ⟨m', r⟩
      rw [exchanges_cons hc, List.cons_append, List.cons.injEq] at h
      obtain ⟨cs₁, cs₂, rfl, h₁, h₂⟩ := ih h.2
      refine ⟨c :: cs₁, cs₂, rfl, ?_, ?_⟩
      · rw [exchanges_cons hc, h.1, h₁]
      · rw [calls_cons hc, h₂]

/-! ## One call -/

theorem isActive_iff {m : Machine} : m.isActive = true ↔ m.status ≠ .idle := by
  simp [isActive]

theorem not_isActive_iff {m : Machine} : m.isActive = false ↔ m.status = .idle := by
  simp [isActive]

theorem call_of_isActive {m : Machine} (h : m.isActive = true) {c : Call}
    (hc : c.needsIdle = true) : m.call c = (m, .refused { cause := .alreadyRunning }) := by
  cases c with
  | start text => simp only [call, start, h, if_true]; rfl
  | reset => simp only [call, reset, h, if_true]; rfl
  | _ => cases hc

theorem execute_of_not_isActive {m : Machine} (h : m.isActive = false) (n : Nat) :
    m.execute n = (m, .stopped) := by
  simp only [execute, not_isActive_iff.1 h]

/-- **A run is begun only while none is on, ended only while one is on, and nothing else
    changes whether one is on.** -/
theorem call_isActive {m m' : Machine} {c : Call} {r : Reply} (h : m.call c = (m', r)) :
    (Exchange.begins ⟨c, r⟩ = true ∧ Exchange.ends ⟨c, r⟩ = false ∧
      m.isActive = false ∧ m'.isActive = true) ∨
    (Exchange.begins ⟨c, r⟩ = false ∧ Exchange.ends ⟨c, r⟩ = true ∧
      m.isActive = true ∧ m'.isActive = false) ∨
    (Exchange.begins ⟨c, r⟩ = false ∧ Exchange.ends ⟨c, r⟩ = false ∧
      m'.isActive = m.isActive) := by
  rcases c with text | _ | text | _ | n
  case start =>
    cases ha : m.isActive with
    | true =>
      rw [call_of_isActive ha rfl] at h
      cases h
      exact Or.inr (Or.inr ⟨rfl, rfl, ha⟩)
    | false =>
      simp only [call, start_of_idle (not_isActive_iff.1 ha)] at h
      cases h
      exact Or.inl ⟨rfl, rfl, rfl, rfl⟩
  case reset =>
    cases ha : m.isActive with
    | true =>
      rw [call_of_isActive ha rfl] at h
      cases h
      exact Or.inr (Or.inr ⟨rfl, rfl, ha⟩)
    | false =>
      simp only [call, reset, ha] at h
      cases h
      exact Or.inr (Or.inr ⟨rfl, rfl, ha⟩)
  case enter | closeInput =>
    cases h
    exact Or.inr (Or.inr ⟨rfl, rfl, rfl⟩)
  case execute =>
    cases ha : m.isActive with
    | true =>
      rcases hx : m.execute n with ⟨m₁, e⟩
      have hf := (execute_final (isActive_iff.1 ha) hx).2
      simp only [call, hx] at h
      cases h
      cases he : e.isFinal with
      | true => exact Or.inr (Or.inl ⟨rfl, he, rfl, not_isActive_iff.2 (hf.2 he)⟩)
      | false =>
        refine Or.inr (Or.inr ⟨rfl, he, isActive_iff.2 ?_⟩)
        exact execute_active (isActive_iff.1 ha) hx he
    | false =>
      simp only [call, execute_of_not_isActive ha n] at h
      cases h
      exact Or.inr (Or.inr ⟨rfl, rfl, ha⟩)

/-! ## Calls in a row -/

/-- **Of the runs begun, all are over but the one that is on.** -/
theorem begun_eq_ended (m : Machine) (cs : List Call) :
    (m.exchanges cs).countP Exchange.begins + m.isActive.toNat =
      (m.exchanges cs).countP Exchange.ends + (m.calls cs).1.isActive.toNat := by
  induction cs generalizing m with
  | nil => rfl
  | cons c cs ih =>
    rcases hc : m.call c with ⟨m', r⟩
    have hr := ih m'
    rw [exchanges_cons hc, calls_cons hc, List.countP_cons, List.countP_cons]
    obtain ⟨hb, he, ha, ha'⟩ | ⟨hb, he, ha, ha'⟩ | ⟨hb, he, ha'⟩ := call_isActive hc
    · simp only [hb, he, ha, ha', if_true, Bool.false_eq_true, if_false, Bool.toNat_true,
        Bool.toNat_false] at hr ⊢
      omega
    · simp only [hb, he, ha, ha', if_true, Bool.false_eq_true, if_false, Bool.toNat_true,
        Bool.toNat_false] at hr ⊢
      omega
    · simp only [hb, he, ha', Bool.false_eq_true, if_false] at hr ⊢
      omega

/-- Somewhere among the exchanges a run is begun that comes to no final event after it. -/
def BeginsOpen (xs : List Exchange) : Prop :=
  ∃ before b after, xs = before ++ b :: after ∧ b.begins = true ∧ ∀ y ∈ after, y.ends = false

theorem beginsOpen_cons {x : Exchange} {xs : List Exchange} : BeginsOpen (x :: xs) ↔
    (x.begins = true ∧ ∀ y ∈ xs, y.ends = false) ∨ BeginsOpen xs := by
  constructor
  · rintro ⟨_ | ⟨_, before⟩, b, after, hx, hb, ha⟩
    · cases hx
      exact Or.inl ⟨hb, ha⟩
    · cases hx
      exact Or.inr ⟨before, b, after, rfl, hb, ha⟩
  · rintro (⟨hb, ha⟩ | ⟨before, b, after, rfl, hb, ha⟩)
    · exact ⟨[], x, xs, rfl, hb, ha⟩
    · exact ⟨x :: before, b, after, rfl, hb, ha⟩

/-- A run is on if it has been begun and has not come to a final event since, or if it was on
    and has not come to one. -/
theorem calls_isActive_iff (m : Machine) (cs : List Call) : (m.calls cs).1.isActive = true ↔
    BeginsOpen (m.exchanges cs) ∨ (m.isActive = true ∧ ∀ y ∈ m.exchanges cs, y.ends = false) := by
  induction cs generalizing m with
  | nil => simp [calls, exchanges, BeginsOpen]
  | cons c cs ih =>
    rcases hc : m.call c with ⟨m', r⟩
    rw [calls_cons hc, ih, exchanges_cons hc, beginsOpen_cons, List.forall_mem_cons]
    obtain ⟨hb, he, ha, ha'⟩ | ⟨hb, he, ha, ha'⟩ | ⟨hb, he, ha'⟩ := call_isActive hc
    · rw [hb, he, ha, ha']
      tauto
    · rw [hb, he, ha']
      tauto
    · rw [hb, he, ha']
      tauto

/-- Between a run begun and the next one there is one final event. -/
theorem countP_ends_eq_one {m : Machine} {cs : List Call} {before between after : List Exchange}
    {b b' : Exchange} (h : m.exchanges cs = before ++ b :: (between ++ b' :: after))
    (hb : b.begins = true) (hb' : b'.begins = true) (hn : ∀ y ∈ between, y.begins = false) :
    between.countP Exchange.ends = 1 := by
  obtain ⟨cs₁, cs', rfl, -, h'⟩ := exchanges_eq_append h
  obtain _ | ⟨c, cs'⟩ := cs'
  · cases h'
  rcases hc : (m.calls cs₁).1.call c with ⟨m₁, r⟩
  rw [exchanges_cons hc, List.cons.injEq] at h'
  obtain ⟨cs₂, cs₃, rfl, h₂, h₃⟩ := exchanges_eq_append h'.2
  obtain _ | ⟨c', cs₃⟩ := cs₃
  · cases h₃
  rcases hc' : (m₁.calls cs₂).1.call c' with ⟨m₂, r'⟩
  rw [exchanges_cons hc', List.cons.injEq] at h₃
  rw [← h'.1] at hb
  rw [← h₃.1] at hb'
  -- a run is on after the first beginning, and none before the second one
  have ha₁ : m₁.isActive = true := by
    obtain ⟨-, -, -, ha⟩ | ⟨hf, -⟩ | ⟨hf, -⟩ := call_isActive hc
    · exact ha
    · rw [hf] at hb; cases hb
    · rw [hf] at hb; cases hb
  have ha₂ : (m₁.calls cs₂).1.isActive = false := by
    obtain ⟨-, -, ha, -⟩ | ⟨hf, -⟩ | ⟨hf, -⟩ := call_isActive hc'
    · exact ha
    · rw [hf] at hb'; cases hb'
    · rw [hf] at hb'; cases hb'
  have hz : between.countP Exchange.begins = 0 := by
    rw [List.countP_eq_zero]
    intro y hy hyb
    rw [hn y hy] at hyb
    cases hyb
  have hsum := begun_eq_ended m₁ cs₂
  rw [h₂, ha₁, ha₂, hz, Bool.toNat_true, Bool.toNat_false] at hsum
  omega

/-! ## Refused calls -/

/-- What is not marked. -/
def unmarked {α : Type} (xs : List (α × Bool)) : List α :=
  (xs.filter fun x => !x.2).map Prod.fst

/-- The marked calls are all made while a run is on, and are possible only while none is. -/
def Inserts (m : Machine) : List (Call × Bool) → Prop
  | [] => True
  | (c, marked) :: xs =>
    (marked = true → m.isActive = true ∧ c.needsIdle = true) ∧ Inserts (m.call c).1 xs

/-- **Calls that are refused because a run is on change nothing**: without them the machine comes
    to the same, and the other calls have the same answers. -/
theorem Inserts.calls {m : Machine} {xs : List (Call × Bool)} (h : Inserts m xs) :
    (m.calls (xs.map Prod.fst)).1 = (m.calls (unmarked xs)).1 ∧
      unmarked ((m.calls (xs.map Prod.fst)).2.zip (xs.map Prod.snd)) =
        (m.calls (unmarked xs)).2 := by
  induction xs generalizing m with
  | nil => exact ⟨rfl, rfl⟩
  | cons x xs ih =>
    obtain ⟨c, _ | _⟩ := x
    · obtain ⟨h₁, h₂⟩ := ih h.2
      rcases hc : m.call c with ⟨m', r⟩
      rw [hc] at h₁ h₂
      have hu : unmarked ((c, false) :: xs) = c :: unmarked xs := rfl
      rw [hu, List.map_cons, List.map_cons, calls_cons hc, calls_cons hc]
      refine ⟨h₁, ?_⟩
      rw [← h₂]
      rfl
    · obtain ⟨ha, hi⟩ := h.1 rfl
      have hc := call_of_isActive ha hi
      have hr := h.2
      rw [hc] at hr
      obtain ⟨h₁, h₂⟩ := ih hr
      have hu : unmarked ((c, true) :: xs) = unmarked xs := rfl
      rw [hu, List.map_cons, List.map_cons, calls_cons hc]
      exact ⟨h₁, h₂⟩

/-! ## The life of a run -/

theorem execute_stopped_iff (m : Machine) (n : Nat) :
    (m.execute n).2 = .stopped ↔ m.isActive = false := by
  constructor
  · intro hx
    by_contra ha
    rw [Bool.not_eq_false] at ha
    have hs : m.execute n = ((m.execute n).1, .stopped) := Prod.ext rfl hx
    exact (execute_final (isActive_iff.1 ha) hs).1 rfl
  · intro ha
    rw [execute_of_not_isActive ha]

theorem execute_isActive_iff (m : Machine) (n : Nat) : (m.execute n).1.isActive = true ↔
    (m.execute n).2 ≠ .stopped ∧ (m.execute n).2.isFinal = false := by
  rw [Ne, execute_stopped_iff, Bool.not_eq_false]
  cases ha : m.isActive with
  | false => simp [execute_of_not_isActive ha, ha]
  | true =>
    rcases hx : m.execute n with ⟨m', e⟩
    rw [isActive_iff, Ne, (execute_final (isActive_iff.1 ha) hx).2]
    simp

/-- **A run is on from its beginning to its first final event.**  Whatever is asked of a machine
    that no run is on at first: a run is on if and only if one has been begun and has
    come to no final event since; between two runs begun one after the other there is one
    final event; a slice finds no run if and only if none is on, and then changes
    nothing; a run is on after a slice if and only if the slice has found it and come to an
    event that is not final.  While a run is on, no other one is begun and nothing is
    reset, and calls that ask for it can be made anywhere without any consequence. -/
theorem life_cycle {m : Machine} (hm : m.isActive = false) (cs : List Call) :
    ((m.calls cs).1.isActive = true ↔ BeginsOpen (m.exchanges cs)) ∧
    (∀ before b between b' after, m.exchanges cs = before ++ b :: (between ++ b' :: after) →
      b.begins = true → b'.begins = true → (∀ y ∈ between, y.begins = false) →
        between.countP Exchange.ends = 1) ∧
    (∀ n, ((m.calls cs).1.execute n).2 = .stopped ↔ (m.calls cs).1.isActive = false) ∧
    (∀ n, (m.calls cs).1.isActive = false → ((m.calls cs).1.execute n).1 = (m.calls cs).1) ∧
    (∀ n, ((m.calls cs).1.execute n).1.isActive = true ↔
      ((m.calls cs).1.execute n).2 ≠ .stopped ∧
        ((m.calls cs).1.execute n).2.isFinal = false) ∧
    ((m.calls cs).1.isActive = true → ∀ c, c.needsIdle = true →
      (m.calls cs).1.call c = ((m.calls cs).1, .refused ⟨.alreadyRunning, none, ""⟩)) ∧
    ∀ xs, unmarked xs = cs → Inserts m xs →
      (m.calls (xs.map Prod.fst)).1 = (m.calls cs).1 ∧
        unmarked ((m.calls (xs.map Prod.fst)).2.zip (xs.map Prod.snd)) = (m.calls cs).2 := by
  refine ⟨?_, ?_, fun n => execute_stopped_iff _ n, ?_, fun n => execute_isActive_iff _ n, ?_, ?_⟩
  · rw [calls_isActive_iff, hm]
    simp
  · intro before b between b' after h hb hb' hn
    exact countP_ends_eq_one h hb hb' hn
  · intro n ha
    rw [execute_of_not_isActive ha]
  · intro ha c hc
    exact call_of_isActive ha hc
  · rintro xs rfl hx
    exact hx.calls

/-- Two runs, the first of them given up for a line that is no integer; while it waits for the
    line, a run and a blank tape are asked for. -/
theorem life_cycle_two_runs :
    let m := ofTape (.zeros 0)
    let first := [(.start "oom", false), (.execute 2, false), (.reset, true), (.start "MoO", true),
      (.enter "x", false), (.execute 1, false)]
    let xs := first ++ [(.execute 1, false), (.start "", false)]
    m.isActive = false ∧ Inserts m xs ∧
      (m.calls (unmarked xs)).2 = [.done, .event (.input .integer), .done,
        .event (.failed ⟨.illegalInput, some 0, "x"⟩), .event .stopped, .done] ∧
      (m.calls (xs.map Prod.fst)).1 = (m.calls (unmarked xs)).1 ∧
      BeginsOpen (m.exchanges (unmarked xs)) ∧
      ((m.exchanges (unmarked xs)).drop 1).dropLast.countP Exchange.ends = 1 := by
  intro m first xs
  have hi : Inserts m xs := by
    simp only [xs, first, Inserts, List.cons_append, List.nil_append]
    decide
  obtain ⟨ha, hc, -, -, -, -, hx⟩ := life_cycle (m := m) (by decide) (unmarked xs)
  refine ⟨by decide, hi, by decide, (hx xs rfl hi).1, ha.1 (by decide), ?_⟩
  exact hc [] ⟨.start "oom", .done⟩ _ ⟨.start "", .done⟩ [] (by decide) rfl rfl (by decide)

end Machine

end MooCode
