/-
  Moo-code — input that is there from the beginning.

  * `Machine.eager m lines`: the machine `m` with the lines `lines` entered and no more
    input to come.
  * `read_append`: an attempt to read that is settled stays so when more input is
    entered after what there is.
  * `execute_eager`: a slice that does not come to wait for input is the same slice on the
    eager machine, and `execute_eager_of_input`: where a slice comes to wait, the eager
    machine has come to the same read.  Both are about a machine that `Expects` the lines,
    which means that it is not closed while there are some.
-/
import MooCode.Proofs.Slices

namespace MooCode

/-- The lines `lines` as they are queued. -/
def queued (lines : List String) : List Char :=
  lines.flatMap fun l => l.toList ++ ['\n']

namespace Machine

/-- The machine with the lines `lines` entered and no more input to come. -/
def eager (m : Machine) (lines : List String) : Machine :=
  (lines.foldl enter m).closeInput

theorem eager_eq (m : Machine) (lines : List String) :
    m.eager lines = m.withInput (m.input ++ queued lines) true := by
  induction lines generalizing m with
  | nil => simp [eager, closeInput, queued, withInput]
  | cons l lines ih =>
    show (m.enter l).eager lines = _
    rw [ih]
    simp [enter, withInput, queued]

/-- More lines come to the machine only if it is not closed. -/
def Expects (m : Machine) (lines : List String) : Prop :=
  m.closed = true → lines = []

theorem expects_of_open {m : Machine} (ho : m.closed = false) (lines : List String) :
    m.Expects lines := by
  intro hc
  rw [ho] at hc
  cases hc

theorem eager_of_closed {m : Machine} {lines : List String} (hl : m.Expects lines)
    (hc : m.closed = true) : m.eager lines = m := by
  rw [hl hc]
  show m.closeInput = m
  rw [closeInput, ← hc]

theorem Keeps.expects {m m' : Machine} (h : Keeps m m') {lines : List String}
    (hl : m.Expects lines) : m'.Expects lines :=
  fun hc => hl (h.closed ▸ hc)

theorem execute_closed {m m' : Machine} {n : Nat} {e : Event} (h : m.execute n = (m', e)) :
    m'.closed = m.closed := by
  have hs : Stable (·.closed = m.closed) := ⟨fun hk hc => hk.closed.trans hc, fun _ hc => hc⟩
  have hc := hs.execute rfl n
  rwa [h] at hc

theorem Expects.execute {m m' : Machine} {lines : List String} (hl : m.Expects lines) {n : Nat}
    {e : Event} (h : m.execute n = (m', e)) : m'.Expects lines :=
  fun hc => hl (execute_closed h ▸ hc)

/-! ## Reading ahead of more input -/

theorem nextLine?_append {m : Machine} (ho : m.closed = false) {line rest : List Char}
    (h : m.nextLine? = some (line, rest)) (more : List Char) :
    (m.withInput (m.input ++ more) true).nextLine? = some (line, rest ++ more) := by
  unfold nextLine? at h
  split at h
  · next l x q hs =>
    cases h
    obtain ⟨hi, hl, hx⟩ := Text.span_eq_cons_iff.1 hs
    have hs' : (m.input ++ more).span (· ≠ '\n') = (l, x :: (rest ++ more)) :=
      Text.span_eq_cons_iff.2 ⟨by rw [hi, List.append_assoc, List.cons_append], hl, hx⟩
    have hm : (m.withInput (m.input ++ more) true).input = m.input ++ more := rfl
    rw [nextLine?, hm, hs']
  · simp [ho] at h

/-- **What has been read stays read**: an attempt that is settled comes out in the same way
    when there is more input after what there is. -/
theorem read_append {m m' : Machine} (ho : m.closed = false) {r : Request} {x : Reading}
    (h : m.read r = (m', x)) (hx : x ≠ .pending) (more : List Char) :
    (m.withInput (m.input ++ more) true).read r = (m'.withInput (m'.input ++ more) true, x) := by
  have hs : m.starve = (m, .pending) := by simp [starve, ho]
  cases r with
  | char =>
    simp only [read, readChar] at h ⊢
    rcases hi : m.input with _ | ⟨c, q⟩ <;> rw [hi] at h
    · rw [hs] at h; cases h; exact absurd rfl hx
    · cases h; rfl
  | integer =>
    simp only [read, readInteger] at h ⊢
    rcases hn : m.nextLine? with _ | ⟨line, q⟩ <;> rw [hn] at h
    · rw [hs] at h; cases h; exact absurd rfl hx
    · rw [nextLine?_append ho hn]
      dsimp only at h ⊢
      rcases hv : Cell.ofDecimal? (Text.trim line) with _ | v <;> rw [hv] at h <;> cases h <;> rfl

theorem read_eager {m m' : Machine} {lines : List String} (hl : m.Expects lines) {r : Request}
    {x : Reading} (h : m.read r = (m', x)) (hx : x ≠ .pending) :
    (m.eager lines).read r = (m'.eager lines, x) := by
  cases hc : m.closed with
  | false => rw [eager_eq, eager_eq]; exact read_append hc h hx _
  | true =>
    have hk := read_keeps h
    rw [eager_of_closed hl hc, eager_of_closed (hk.expects hl) (hk.closed.trans hc), h]

/-! ## Running ahead of more input -/

theorem fetched_eager (m : Machine) (lines : List String) :
    (m.eager lines).fetched = m.fetched.eager lines := by
  rw [eager_eq, eager_eq]; rfl

theorem upcoming_eager (m : Machine) (lines : List String) :
    (m.eager lines).upcoming = m.upcoming := by
  rw [eager_eq]; rfl

theorem program_eager (m : Machine) (lines : List String) :
    (m.eager lines).program = m.program := by
  rw [eager_eq]; rfl

theorem status_eager (m : Machine) (lines : List String) (s : Status) :
    { m.eager lines with status := s } = { m with status := s }.eager lines := by
  rw [eager_eq, eager_eq]; rfl

theorem settle_eager (m : Machine) (lines : List String) (line : Nat) (e : Effect) :
    (m.eager lines).settle line e = ((m.settle line e).1.eager lines, (m.settle line e).2) := by
  cases e with
  | next | print => rfl
  | await | halt | fail => simp only [settle, abort, status_eager]

theorem demand_eager {m : Machine} {lines : List String} (hl : m.Expects lines) {r : Request}
    (h : (m.demand r).2 ≠ .await r) :
    (m.eager lines).demand r = ((m.demand r).1.eager lines, (m.demand r).2) := by
  unfold demand at h ⊢
  rcases hr : m.read r with ⟨m', _ | _ | f⟩ <;> rw [hr] at h
  · rw [read_eager hl hr (by simp)]
  · exact absurd rfl h
  · rw [read_eager hl hr (by simp)]

theorem performed_eager {m : Machine} {lines : List String} (hl : m.Expects lines)
    (h : ∀ r, m.performed.2 ≠ .await r) :
    (m.eager lines).performed = (m.performed.1.eager lines, m.performed.2) := by
  rw [performed, fetched_eager, upcoming_eager, program_eager]
  rcases hr : m.upcoming.request? m.tape.here with _ | r
  · have hi := perform_input (m := m.fetched) hr m.program.cursor
    rw [eager_eq, perform_withInput (m := m.fetched) hr, performed, eager_eq, hi]
  · have he : m.performed = m.fetched.demand r := perform_of_request (m := m.fetched) hr _
    have he' : (m.fetched.eager lines).perform m.upcoming m.program.cursor =
        (m.fetched.eager lines).demand r := by
      rw [eager_eq]
      exact perform_of_request (m := m.fetched.withInput _ true) hr _
    rw [he] at h ⊢
    rw [he', demand_eager (m.fetched_keeps.expects hl) (h r)]

theorem cycle_eager {m m' : Machine} {lines : List String} (hl : m.Expects lines)
    {e : Option Event} (h : m.cycle = (m', e)) (he : ∀ r, e ≠ some (.input r)) :
    (m.eager lines).cycle = (m'.eager lines, e) := by
  rw [cycle_eq] at h ⊢
  have hp : ∀ r, m.performed.2 ≠ .await r := by
    intro r hr
    rw [hr] at h
    cases h; exact he r rfl
  rw [performed_eager hl hp, program_eager, settle_eager, h]

theorem advance_eager {m m' : Machine} {lines : List String} (hl : m.Expects lines) {n : Nat}
    {e : Event} (h : advance n m = (m', e)) (he : ∀ r, e ≠ .input r) :
    advance n (m.eager lines) = (m'.eager lines, e) := by
  induction n generalizing m with
  | zero => cases h; rfl
  | succ n ih =>
    simp only [advance] at h ⊢
    rcases hc : m.cycle with ⟨m₁, _ | e₁⟩ <;> rw [hc] at h
    · rw [cycle_eager hl hc (by simp)]
      exact ih ((cycle_keeps hc).expects hl) h
    · cases h
      rw [cycle_eager hl hc fun r hr => he r (Option.some.inj hr)]

/-- **A slice that does not come to wait for input does not depend on when the rest of the
    input is entered.** -/
theorem execute_eager {m m' : Machine} {lines : List String} (hl : m.Expects lines) {n : Nat}
    {e : Event} (h : m.execute n = (m', e)) (he : ∀ r, e ≠ .input r) :
    (m.eager lines).execute n = (m'.eager lines, e) := by
  have hst : (m.eager lines).status = m.status := by rw [eager_eq]; rfl
  rcases m.execute_cases with ⟨hs, hx⟩ | ⟨hs, hx⟩ |
    ⟨r, line, hs, ⟨m₁, hr, hx⟩ | ⟨-, hx⟩ | ⟨m₁, f, hr, hx⟩⟩ <;> rw [hx] at h
  · cases h; simp only [execute, hst, hs]
  · simp only [execute, hst, hs, advance_eager hl h he]
  · have hl₁ : { m₁ with status := .running }.Expects lines := (read_keeps hr).expects hl
    simp only [execute, hst, hs, read_eager hl hr (by simp), status_eager]
    exact advance_eager hl₁ h he
  · cases h; exact absurd rfl (he r)
  · cases h
    simp only [execute, hst, hs, read_eager hl hr (by simp), abort, status_eager]

/-! ## Coming to wait -/

theorem read_withStatus (m : Machine) (r : Request) (s : Status) :
    { m with status := s }.read r = ({ (m.read r).1 with status := s }, (m.read r).2) :=
  read_map (fun m => { m with status := s }) rfl rfl (fun _ => rfl) (fun _ _ => rfl) r

/-- A cycle that comes to wait, as it does only while more input comes, has done nothing
    but move the cursor on. -/
theorem cycle_input {m m' : Machine} {r : Request} (h : m.cycle = (m', some (.input r))) :
    m.closed = false ∧ m.upcoming.request? m.tape.here = some r ∧
      m' = { m.fetched with status := .waiting r m.program.cursor } := by
  rw [cycle_eq] at h
  rcases hq : m.upcoming.request? m.tape.here with _ | q
  · have hn := perform_ne_await (m := m.fetched) hq m.program.cursor
    rcases he : m.performed.2 with _ | text | r' | _ | f <;> rw [he] at h <;> cases h
    exact absurd he (hn r)
  · have hd : m.performed = m.fetched.demand q := perform_of_request (m := m.fetched) hq _
    rw [hd, demand] at h
    rcases read_cases m.fetched q with ⟨v, rest, hr⟩ | ⟨ho, hr⟩ | ⟨-, hr⟩ | ⟨rest, text, hr⟩ <;>
      rw [hr] at h <;> cases h
    exact ⟨ho, rfl, rfl⟩

/-- Serving a request in the cycle that makes it is serving it when the run is resumed. -/
theorem settle_demand {m : Machine} (hs : m.status = .running) {r : Request}
    (hp : (m.read r).2 ≠ .pending) (line : Nat) :
    (match (m.demand r).1.settle line (m.demand r).2 with
      | (m', none) => (m', .running)
      | (m', some e) => (m', e)) = { m with status := .waiting r line }.execute 0 := by
  have hw := read_withStatus m r (.waiting r line)
  rcases hr : m.read r with ⟨m', _ | _ | f⟩ <;> rw [hr] at hp hw
  · have hs' : m'.status = .running := (read_keeps hr).status.trans hs
    simp only [demand, hr, settle, execute, hw, advance, ← hs']
  · exact absurd rfl hp
  · simp only [demand, hr, settle, execute, hw, abort]

theorem read_pending {m m' : Machine} {r : Request} (h : m.read r = (m', .pending)) :
    m.closed = false := by
  rcases read_cases m r with ⟨v, rest, hr⟩ | ⟨ho, hr⟩ | ⟨-, hr⟩ | ⟨rest, text, hr⟩ <;>
    rw [hr] at h <;> cases h
  exact ho

theorem read_eager_ne_pending (m : Machine) (lines : List String) (r : Request) :
    ((m.eager lines).read r).2 ≠ .pending := by
  intro hp
  have ho := read_pending (Prod.ext rfl hp)
  rw [eager_eq] at ho
  cases ho

theorem cycle_eager_of_input {m m' : Machine} (hs : m.status = .running) {r : Request}
    (h : m.cycle = (m', some (.input r))) (lines : List String) :
    advance 1 (m.eager lines) = (m'.eager lines).execute 0 := by
  obtain ⟨-, hq, rfl⟩ := cycle_input h
  have hs' : (m.fetched.eager lines).status = .running := by rw [eager_eq]; exact hs
  have hd : (m.eager lines).performed = (m.fetched.eager lines).demand r := by
    rw [performed, fetched_eager, upcoming_eager, eager_eq]
    exact perform_of_request (m := m.fetched.withInput _ true) hq _
  have hw := status_eager m.fetched lines (.waiting r m.program.cursor)
  rw [← hw, ← settle_demand hs' (read_eager_ne_pending _ _ _), advance, cycle_eq, hd,
    program_eager]
  rfl

theorem advance_eager_of_input {m m' : Machine} (hs : m.status = .running) {lines : List String}
    (hl : m.Expects lines) {n : Nat} {r : Request} (h : advance n m = (m', .input r)) :
    ∃ k, advance k (m.eager lines) = (m'.eager lines).execute 0 := by
  induction n generalizing m with
  | zero => cases h
  | succ n ih =>
    simp only [advance] at h
    rcases hc : m.cycle with ⟨m₁, _ | e⟩ <;> rw [hc] at h
    · have hk := cycle_keeps hc
      obtain ⟨k, hk'⟩ := ih (hk.status.trans hs) (hk.expects hl) h
      exact ⟨k + 1, by rw [advance, cycle_eager hl hc (by simp)]; exact hk'⟩
    · cases h
      exact ⟨1, cycle_eager_of_input hs hc lines⟩

/-- **Where a slice comes to wait for input, the eager machine has come to the same
    read.** -/
theorem execute_eager_of_input {m m' : Machine} {lines : List String} (hl : m.Expects lines)
    {n : Nat} {r : Request} (h : m.execute n = (m', .input r)) :
    ∃ k, (m.eager lines).execute k = (m'.eager lines).execute 0 := by
  have hst : (m.eager lines).status = m.status := by rw [eager_eq]; rfl
  rcases m.execute_cases with ⟨-, hx⟩ | ⟨hs, hx⟩ |
    ⟨q, line, hs, ⟨m₁, hr, hx⟩ | ⟨-, hx⟩ | ⟨m₁, f, -, hx⟩⟩ <;> rw [hx] at h
  · cases h
  · obtain ⟨k, hk⟩ := advance_eager_of_input hs hl h
    exact ⟨k, by rw [← hk]; simp only [execute, hst, hs]⟩
  · have hl₁ : { m₁ with status := .running }.Expects lines := (read_keeps hr).expects hl
    obtain ⟨k, hk⟩ := advance_eager_of_input rfl hl₁ h
    refine ⟨k, ?_⟩
    rw [← hk]
    simp only [execute, hst, hs, read_eager hl hr (by simp), status_eager]
  · cases h; exact ⟨0, rfl⟩
  · cases h

theorem advance_input {m m' : Machine} {n : Nat} {r : Request}
    (h : advance n m = (m', .input r)) : m.closed = false := by
  induction n generalizing m with
  | zero => cases h
  | succ n ih =>
    simp only [advance] at h
    rcases hc : m.cycle with ⟨m₁, _ | e⟩ <;> rw [hc] at h
    · exact (cycle_keeps hc).closed.symm.trans (ih h)
    · cases h
      exact (cycle_input hc).1

/-- A slice comes to wait only while more input comes. -/
theorem execute_input {m m' : Machine} {n : Nat} {r : Request}
    (h : m.execute n = (m', .input r)) : m.closed = false := by
  rcases m.execute_cases with ⟨-, hx⟩ | ⟨-, hx⟩ |
    ⟨q, line, -, ⟨m₁, hr, hx⟩ | ⟨hr, -⟩ | ⟨m₁, f, -, hx⟩⟩
  · rw [hx] at h
    cases h
  · exact advance_input ((hx n).symm.trans h)
  · have ho : m₁.closed = false :=
      advance_input (m := { m₁ with status := .running }) ((hx n).symm.trans h)
    exact (read_keeps hr).closed.symm.trans ho
  · exact read_pending hr
  · rw [hx] at h
    cases h

/-! ## Where runs lead -/

/-- **A run leads to where it leads with all its input there from the beginning**, slice by
    slice. -/
theorem finishes_eager {m m' : Machine} (hs : m.status ≠ .idle) {lines : List String}
    (hl : m.Expects lines) {n : Nat} {e : Event} (h : m.execute n = (m', e))
    (he : e.isFinal = false) {o : Outcome} : Finishes (m.eager lines) o ↔
      ∃ o', Finishes (m'.eager lines) o' ∧
        o = { o' with texts := Event.texts [e] ++ o'.texts } := by
  cases e with
  | stopped => exact absurd rfl (execute_final hs h).1
  | running =>
    rw [finishes_of_running (execute_eager hl h (by simp))]
    constructor
    · intro ho
      exact ⟨o, ho, rfl⟩
    · rintro ⟨o', ho, rfl⟩
      exact ho
  | print text => exact finishes_of_print (execute_eager hl h (by simp))
  | input r =>
    obtain ⟨k, hk⟩ := execute_eager_of_input hl h
    rw [finishes_congr hk]
    constructor
    · intro ho
      exact ⟨o, ho, rfl⟩
    · rintro ⟨o', ho, rfl⟩
      exact ho
  | ended | failed => cases he

theorem finishes_eager_of_final {m m' : Machine} {lines : List String} (hl : m.Expects lines)
    {n : Nat} {e : Event} (h : m.execute n = (m', e)) (he : e.isFinal = true) {o : Outcome} :
    Finishes (m.eager lines) o ↔ o = ⟨[], e, m'.eager lines⟩ := by
  refine finishes_of_stop (execute_eager hl h ?_) (Event.isPassing_of_isFinal he)
  rintro r rfl
  cases he

end Machine

end MooCode
