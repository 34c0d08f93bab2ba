/-
  Moo-code — slices of a run.

  * `Machine.execute_final`: a run is over exactly if a slice has come to a final event.
  * `Machine.execute_add`: a slice of `n + k` cycles is a slice of `n` cycles, and one
    of `k` cycles after it unless the first has come to an event.
  * `Machine.finish n m`: the run of `m`, a cycle at a time, up to the first event after
    which it cannot simply go on (`Outcome`), and `Finishes m o`: it leads to `o` in some
    number of cycles.  Slices of all sizes lead there: `finishes_iff`,
    `finishes_of_drive`, `drive_of_finish`.
  * `Machine.slices_agree`: how a run is cut into slices does not show.
-/
import MooCode.Proofs.Cycle

namespace MooCode

/-- Whether a run is over with the event. -/
def Event.isFinal : Event → Bool
  | ended | failed _ => true
  | _ => false

/-- The texts that a list of events prints. -/
def Event.texts (es : List Event) : List String :=
  es.filterMap fun
    | .print text => some text
    | _ => none

@[simp] theorem Event.texts_print (text : String) (es : List Event) :
    texts (.print text :: es) = text :: texts es :=
  rfl

theorem Event.texts_cons (e : Event) (es : List Event) :
    texts (e :: es) = texts [e] ++ texts es := by
  cases e <;> rfl

theorem Event.texts_of_isFinal {e : Event} (he : e.isFinal = true) : texts [e] = [] := by
  cases e with
  | ended | failed => rfl
  | _ => cases he

theorem Event.isPassing_of_isFinal {e : Event} (he : e.isFinal = true) : e.isPassing = false := by
  cases e with
  | ended | failed => rfl
  | _ => cases he

namespace Machine

/-! ## When a run is over -/

theorem advance_final {m m' : Machine} (hs : m.status = .running) {n : Nat} {e : Event}
    (h : advance n m = (m', e)) : e ≠ .stopped ∧ (m'.status = .idle ↔ e.isFinal = true) := by
  induction n generalizing m with
  | zero =>
    cases h
    rw [hs]
    simp [Event.isFinal]
  | succ n ih =>
    simp only [advance] at h
    obtain ⟨m₁, hk, hc | ⟨text, hc⟩ | ⟨r, hc⟩ | hc | ⟨f, -, hc⟩⟩ := m.cycle_cases <;> rw [hc] at h
    · exact ih (hk.status.trans hs) h
    · cases h
      rw [hk.status, hs]
      simp [Event.isFinal]
    · cases h
      simp [Event.isFinal]
    · cases h
      simp [Event.isFinal]
    · cases h
      simp [Event.isFinal]

/-- A slice of a run that is on finds it, and the run is over exactly if the slice comes to a
    final event. -/
theorem execute_final {m m' : Machine} (hs : m.status ≠ .idle) {n : Nat} {e : Event}
    (h : m.execute n = (m', e)) : e ≠ .stopped ∧ (m'.status = .idle ↔ e.isFinal = true) := by
  rcases m.execute_cases with ⟨hi, -⟩ | ⟨hr, hx⟩ |
    ⟨r, line, hw, ⟨m₁, -, hx⟩ | ⟨-, hx⟩ | ⟨m₁, f, -, hx⟩⟩
  · exact absurd hi hs
  · exact advance_final hr ((hx n).symm.trans h)
  · exact advance_final (m := { m₁ with status := .running }) rfl ((hx n).symm.trans h)
  · rw [hx] at h
    cases h
    rw [hw]
    simp [Event.isFinal]
  · rw [hx] at h
    cases h
    simp [Event.isFinal]

theorem execute_active {m m' : Machine} (hs : m.status ≠ .idle) {n : Nat} {e : Event}
    (h : m.execute n = (m', e)) (he : e.isFinal = false) : m'.status ≠ .idle := by
  intro hi
  rw [(execute_final hs h).2, he] at hi
  cases hi

/-! ## Longer slices -/

theorem cycle_ne_running {m m' : Machine} {e : Event} (h : m.cycle = (m', some e)) :
    e ≠ .running := by
  obtain ⟨m₁, -, hc | ⟨text, hc⟩ | ⟨r, hc⟩ | hc | ⟨f, -, hc⟩⟩ := m.cycle_cases <;>
    rw [hc] at h <;> cases h <;> simp

theorem cycle_keeps {m m' : Machine} (h : m.cycle = (m', none)) : Keeps m m' := by
  obtain ⟨m₁, hk, hc | ⟨text, hc⟩ | ⟨r, hc⟩ | hc | ⟨f, -, hc⟩⟩ := m.cycle_cases <;>
    rw [hc] at h <;> cases h
  exact hk

theorem advance_keeps {m m' : Machine} {n : Nat} (h : advance n m = (m', .running)) :
    Keeps m m' := by
  induction n generalizing m with
  | zero => cases h; exact .refl _
  | succ n ih =>
    simp only [advance] at h
    rcases hc : m.cycle with ⟨m₁, _ | e⟩ <;> rw [hc] at h
    · exact (cycle_keeps hc).trans (ih h)
    · cases h; exact absurd rfl (cycle_ne_running hc)

theorem advance_add (n k : Nat) (m : Machine) : advance (n + k) m =
    if (advance n m).2 = .running then advance k (advance n m).1 else advance n m := by
  induction n generalizing m with
  | zero => rw [Nat.zero_add]; rfl
  | succ n ih =>
    rw [Nat.add_right_comm]
    obtain ⟨⟨m₁, _ | e⟩, hc⟩ : ∃ after, m.cycle = after := ⟨_, rfl⟩
    · simp only [advance, hc]
      exact ih m₁
    · simp only [advance, hc]
      exact (if_neg (cycle_ne_running hc)).symm

/-- A longer slice goes on where a shorter one has used up its cycles. -/
theorem execute_add (m : Machine) (n k : Nat) : m.execute (n + k) =
    if (m.execute n).2 = .running then (m.execute n).1.execute k else m.execute n := by
  -- a run that goes on for `n` cycles from `m₀` is still running after them
  have key : ∀ m₀ : Machine, m₀.status = .running → advance (n + k) m₀ =
      if (advance n m₀).2 = .running then (advance n m₀).1.execute k else advance n m₀ := by
    intro m₀ hs
    rw [advance_add]
    rcases ha : advance n m₀ with ⟨m', e⟩
    by_cases he : e = .running
    · subst he
      rw [if_pos rfl, if_pos rfl, execute, (advance_keeps ha).status.trans hs]
    · rw [if_neg he, if_neg he]
  rcases m.execute_cases with ⟨-, he⟩ | ⟨hs, he⟩ |
    ⟨r, line, -, ⟨m', -, he⟩ | ⟨-, he⟩ | ⟨m', f, -, he⟩⟩ <;> rw [he, he]
  · rfl
  · exact key m hs
  · exact key _ rfl
  · rfl
  · rfl

theorem execute_add_of_running {m m' : Machine} {n : Nat} (h : m.execute n = (m', .running))
    (k : Nat) : m.execute (n + k) = m'.execute k := by
  rw [execute_add, h, if_pos rfl]

theorem execute_add_of_event {m m' : Machine} {n : Nat} {e : Event} (h : m.execute n = (m', e))
    (he : e ≠ .running) (k : Nat) : m.execute (n + k) = (m', e) := by
  rw [execute_add, h, if_neg he]

/-! ## A cycle at a time -/

/-- What a run leads to: the texts it prints, the event after which it cannot simply go
    on, and the machine then. -/
structure Outcome where
  texts : List String
  event : Event
  machine : Machine

/-- What a run leads to that comes to the event `e` as `m` and goes on to `rest`. -/
def Outcome.after (e : Event) (m : Machine) (rest : Option Outcome) : Option Outcome :=
  match e with
  | .running => rest
  | .print text => rest.map fun o => { o with texts := text :: o.texts }
  | e => some ⟨[], e, m⟩

theorem Outcome.after_of_stop {e : Event} (he : e.isPassing = false) (m : Machine)
    (rest : Option Outcome) : after e m rest = some ⟨[], e, m⟩ := by
  cases e with
  | running | print => cases he
  | _ => rfl

theorem Outcome.of_after {e : Event} (he : e.isPassing = true) {m : Machine}
    {rest : Option Outcome} {o : Outcome} (h : after e m rest = some o) : ∃ o', rest = some o' := by
  cases e with
  | running => exact ⟨o, h⟩
  | print text =>
    obtain ⟨o', ho', -⟩ := Option.map_eq_some_iff.1 h
    exact ⟨o', ho'⟩
  | _ => cases he

/-- The run of `m`, a cycle at a time, unless it takes more than `n` cycles. -/
def finish : (n : Nat) → Machine → Option Outcome
  | 0, _ => none
  | n + 1, m => Outcome.after (m.execute 1).2 (m.execute 1).1 (finish n (m.execute 1).1)

theorem finish_congr {m m' : Machine} (h : m.execute 1 = m'.execute 1) (n : Nat) :
    finish n m = finish n m' := by
  cases n with
  | zero => rfl
  | succ n => simp only [finish, h]

theorem finish_of_running {m m' : Machine} {k : Nat} (h : m.execute k = (m', .running)) (n : Nat) :
    finish (k + n) m = finish n m' := by
  induction k generalizing m with
  | zero =>
    rw [Nat.zero_add]
    exact finish_congr (execute_add_of_running h 1) n
  | succ k ih =>
    rw [Nat.add_comm k 1] at h
    rcases h₁ : m.execute 1 with ⟨m₁, e⟩
    by_cases he : e = .running
    · subst he
      rw [execute_add_of_running h₁] at h
      rw [Nat.add_right_comm, finish, h₁]
      exact ih h
    · rw [execute_add_of_event h₁ he] at h
      cases h; exact absurd rfl he

theorem finish_of_event {m m' : Machine} {k : Nat} {e : Event} (h : m.execute k = (m', e))
    (he : e ≠ .running) : ∃ j, ∀ n, finish (j + n + 1) m = Outcome.after e m' (finish n m') := by
  induction k generalizing m with
  | zero =>
    refine ⟨0, fun n => ?_⟩
    rw [Nat.zero_add, finish, execute_add_of_event (n := 0) h he 1]
  | succ k ih =>
    rw [Nat.add_comm k 1] at h
    rcases h₁ : m.execute 1 with ⟨m₁, e₁⟩
    by_cases he₁ : e₁ = .running
    · subst he₁
      rw [execute_add_of_running h₁] at h
      obtain ⟨j, hj⟩ := ih h
      refine ⟨j + 1, fun n => ?_⟩
      rw [Nat.add_right_comm j 1 n, finish, h₁]
      exact hj n
    · rw [execute_add_of_event h₁ he₁] at h
      cases h
      exact ⟨0, fun n => by rw [Nat.zero_add, finish, h₁]⟩

theorem finish_mono {m : Machine} {n : Nat} {o : Outcome} (h : finish n m = some o) (k : Nat) :
    finish (n + k) m = some o := by
  induction n generalizing m o with
  | zero => cases h
  | succ n ih =>
    rw [Nat.add_right_comm]
    rw [finish] at h ⊢
    rcases hm : m.execute 1 with ⟨m', e⟩
    rw [hm] at h
    cases e with
    | running => exact ih h
    | print text =>
      obtain ⟨o', ho', rfl⟩ := Option.map_eq_some_iff.1 h
      simp only [Outcome.after, ih ho', Option.map_some]
    | _ => exact h

theorem finish_descent {m m' : Machine} {k n : Nat} (hk : 0 < k) {e : Event} {o : Outcome}
    (h : m.execute k = (m', e)) (ho : finish n m = some o) :
    ∃ n' < n, Outcome.after e m' (finish n' m') = some o := by
  obtain ⟨k, rfl⟩ : ∃ j, k = j + 1 := ⟨k - 1, by omega⟩
  clear hk
  induction k generalizing m n with
  | zero =>
    obtain _ | n := n
    · cases ho
    · rw [finish, h] at ho
      exact ⟨n, n.lt_succ_self, ho⟩
  | succ k ih =>
    obtain _ | n := n
    · cases ho
    · rw [Nat.add_comm (k + 1) 1] at h
      rcases h₁ : m.execute 1 with ⟨m₁, e₁⟩
      rw [finish, h₁] at ho
      by_cases he₁ : e₁ = .running
      · subst he₁
        rw [execute_add_of_running h₁] at h
        obtain ⟨n', hn', ho'⟩ := ih ho h
        exact ⟨n', by omega, ho'⟩
      · rw [execute_add_of_event h₁ he₁] at h
        cases h
        exact ⟨n, n.lt_succ_self, ho⟩

/-- The run of `m` leads to `o`. -/
def Finishes (m : Machine) (o : Outcome) : Prop :=
  ∃ n, finish n m = some o

theorem Finishes.unique {m : Machine} {o o' : Outcome} (h : Finishes m o) (h' : Finishes m o') :
    o = o' := by
  obtain ⟨n, h⟩ := h
  obtain ⟨k, h'⟩ := h'
  have h₁ := finish_mono h k
  rw [Nat.add_comm, finish_mono h' n] at h₁
  exact (Option.some.inj h₁).symm

/-- A run leads to where it leads after its first slice. -/
theorem finishes_iff {m m' : Machine} {k : Nat} {e : Event} (h : m.execute k = (m', e))
    {o : Outcome} : Finishes m o ↔ ∃ n, Outcome.after e m' (finish n m') = some o := by
  by_cases he : e = .running
  · subst he
    constructor
    · rintro ⟨n, hn⟩
      have hk := finish_mono hn k
      rw [Nat.add_comm, finish_of_running h] at hk
      exact ⟨n, hk⟩
    · rintro ⟨n, hn⟩
      exact ⟨k + n, (finish_of_running h n).trans hn⟩
  · obtain ⟨j, hj⟩ := finish_of_event h he
    constructor
    · rintro ⟨n, hn⟩
      have hk := finish_mono hn (j + 1)
      rw [show n + (j + 1) = j + n + 1 by omega, hj] at hk
      exact ⟨n, hk⟩
    · rintro ⟨n, hn⟩
      exact ⟨j + n + 1, (hj n).trans hn⟩

theorem finishes_congr {m m' : Machine} {k k' : Nat} (h : m.execute k = m'.execute k')
    {o : Outcome} : Finishes m o ↔ Finishes m' o := by
  rcases hm : m'.execute k' with ⟨m₁, e⟩
  rw [hm] at h
  rw [finishes_iff h, finishes_iff hm]

theorem finishes_of_running {m m' : Machine} {k : Nat} (h : m.execute k = (m', .running))
    {o : Outcome} : Finishes m o ↔ Finishes m' o :=
  finishes_iff h

theorem finishes_of_print {m m' : Machine} {k : Nat} {text : String}
    (h : m.execute k = (m', .print text)) {o : Outcome} :
    Finishes m o ↔ ∃ o', Finishes m' o' ∧ o = { o' with texts := text :: o'.texts } := by
  rw [finishes_iff h]
  constructor
  · rintro ⟨n, hn⟩
    obtain ⟨o', ho', rfl⟩ := Option.map_eq_some_iff.1 hn
    exact ⟨o', ⟨n, ho'⟩, rfl⟩
  · rintro ⟨o', ⟨n, hn⟩, rfl⟩
    exact ⟨n, by rw [hn]; rfl⟩

theorem finishes_of_stop {m m' : Machine} {k : Nat} {e : Event} (h : m.execute k = (m', e))
    (he : e.isPassing = false) {o : Outcome} : Finishes m o ↔ o = ⟨[], e, m'⟩ := by
  rw [finishes_iff h]
  constructor
  · rintro ⟨n, hn⟩
    rw [Outcome.after_of_stop he] at hn
    exact (Option.some.inj hn).symm
  · rintro rfl
    exact ⟨0, Outcome.after_of_stop he _ _⟩

/-! ## Slice after slice -/

theorem drive_of_stop {m m' : Machine} {b : Nat} {e : Event} (h : m.execute b = (m', e))
    (he : e.isPassing = false) (bs : List Nat) : m.drive (b :: bs) = (m', [e]) := by
  simp [drive, h, he]

theorem drive_of_pass {m m' : Machine} {b : Nat} {e : Event} (h : m.execute b = (m', e))
    (he : e.isPassing = true) (bs : List Nat) :
    m.drive (b :: bs) = ((m'.drive bs).1, e :: (m'.drive bs).2) := by
  simp [drive, h, he]

theorem finishes_of_drive {m m' : Machine} {bs : List Nat} {es : List Event} {e : Event}
    (h : m.drive bs = (m', es ++ [e])) (he : e.isPassing = false) :
    Finishes m ⟨Event.texts es, e, m'⟩ := by
  induction bs generalizing m es with
  | nil => simp [drive] at h
  | cons b bs ih =>
    rcases hb : m.execute b with ⟨m₁, e₁⟩
    cases hp : e₁.isPassing with
    | false =>
      rw [drive_of_stop hb hp] at h
      obtain ⟨rfl, rfl, rfl⟩ : m₁ = m' ∧ es = [] ∧ e₁ = e := by
        cases es <;> simp_all
      exact (finishes_of_stop hb hp).2 rfl
    | true =>
      rw [drive_of_pass hb hp] at h
      obtain ⟨es', rfl, rfl, h'⟩ : ∃ es', es = e₁ :: es' ∧ (m₁.drive bs).1 = m' ∧
          (m₁.drive bs).2 = es' ++ [e] := by
        cases es <;> simp_all
      have hf := ih (Prod.ext rfl h')
      cases e₁ with
      | running => exact (finishes_of_running hb).2 hf
      | print text => exact (finishes_of_print hb).2 ⟨_, hf, rfl⟩
      | _ => cases hp

theorem drive_of_finish {m : Machine} {n : Nat} {o : Outcome} (h : finish n m = some o) :
    o.event.isPassing = false ∧ ∃ es, Event.texts es = o.texts ∧
      m.drive (List.replicate n 1) = (o.machine, es ++ [o.event]) := by
  induction n generalizing m o with
  | zero => cases h
  | succ n ih =>
    rw [List.replicate_succ]
    rw [finish] at h
    rcases hm : m.execute 1 with ⟨m', e⟩
    rw [hm] at h
    cases e with
    | running =>
      obtain ⟨hp, es, ht, hd⟩ := ih h
      exact ⟨hp, .running :: es, ht, by rw [drive_of_pass hm rfl, hd]; rfl⟩
    | print text =>
      obtain ⟨o', ho', rfl⟩ := Option.map_eq_some_iff.1 h
      obtain ⟨hp, es, ht, hd⟩ := ih ho'
      refine ⟨hp, .print text :: es, ?_, by rw [drive_of_pass hm rfl, hd]; rfl⟩
      rw [Event.texts_print, ht]
    | _ => cases h; exact ⟨rfl, [], rfl, drive_of_stop hm rfl _⟩

/-- **How a run is cut into slices does not show.**  A slice that uses up its cycles is
    the beginning of every longer one, and a slice that comes to an event is the
    whole of every longer one.  So slices of any two rows of sizes, if both bring a run to
    an event after which it cannot simply go on, print the same, come to the same
    event and leave the same machine. -/
theorem slices_agree (m : Machine) :
    (∀ n k m', m.execute n = (m', .running) → m.execute (n + k) = m'.execute k) ∧
    (∀ n k m' e, m.execute n = (m', e) → e ≠ .running → m.execute (n + k) = (m', e)) ∧
    ∀ bs cs m₁ m₂ es₁ es₂ e₁ e₂, m.drive bs = (m₁, es₁ ++ [e₁]) →
      m.drive cs = (m₂, es₂ ++ [e₂]) → e₁.isPassing = false → e₂.isPassing = false →
      Event.texts es₁ = Event.texts es₂ ∧ e₁ = e₂ ∧ m₁ = m₂ := by
  refine ⟨fun n k m' h => execute_add_of_running h k,
    fun n k m' e h he => execute_add_of_event h he k, ?_⟩
  intro bs cs m₁ m₂ es₁ es₂ e₁ e₂ h₁ h₂ he₁ he₂
  have h := (finishes_of_drive h₁ he₁).unique (finishes_of_drive h₂ he₂)
  injection h with ht he hm
  exact ⟨ht, he, hm⟩

/-- A read that is waited for, cut into slices in two ways: the first one begins with a
    slice of no cycles, which only serves the read. -/
theorem slices_agree_reading : ∃ m : Machine, m.status = .waiting .integer 0 ∧
    m.execute (0 + 9) = (m.execute 0).1.execute 9 ∧
    m.execute (1 + 8) = ((m.execute 1).1, .print "41") ∧
    (m.drive [0, 1, 5]).2 = [.running, .print "41"] ++ [.ended] ∧
    (m.drive [9, 9]).2 = [.print "41"] ++ [.ended] ∧
    (m.drive [0, 1, 5]).1 = (m.drive [9, 9]).1 := by
  refine ⟨((ofTape (.zeros 0)).calls [.start "oom OOM", .execute 1, .enter "41"]).1, by decide, ?_⟩
  obtain ⟨hr, he, hd⟩ := slices_agree
    ((ofTape (.zeros 0)).calls [.start "oom OOM", .execute 1, .enter "41"]).1
  refine ⟨hr 0 9 _ (Prod.ext rfl (by decide)), he 1 8 _ _ (Prod.ext rfl (by decide)) (by simp),
    by decide, by decide, ?_⟩
  exact (hd _ _ _ _ [.running, .print "41"] [.print "41"] .ended .ended
    (Prod.ext rfl (by decide)) (Prod.ext rfl (by decide)) rfl rfl).2.2

end Machine

end MooCode
