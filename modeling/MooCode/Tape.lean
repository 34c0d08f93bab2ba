/-
  Moo-code — the tape.

  A tape is a row of cells and a pointer to one of them.  It is held as seen
  from the pointer: the current cell, and the cells on its two sides.  So the
  pointer is on the tape whatever happens to it.

  * `Tape.blank capacity`: a tape of zeros with the pointer on the first cell.
  * `Tape.cells`, `Tape.pointer`, `Tape.capacity`: the row, the index of the
    current cell, and the length of the row.
  * `Tape.forward`, `Tape.back`, `Tape.increment`, `Tape.decrement`: fail where
    the tape or the range of a cell ends, and then leave the tape alone.
  * `Tape.set`, `Tape.clear`: a write to the current cell, and the blank tape.

  `Tape.ext_cells`: a tape is its row and its pointer.  What the moves and writes
  do to these two is said by `Tape.cells_set`, `Tape.cells_of_back` and
  `Tape.cells_of_forward`.
-/
import MooCode.Cell
import MooCode.Fault

namespace MooCode

/-- A row of cells with a pointer to one of them. -/
structure Tape where
  /-- The cells before the current one, nearest first. -/
  left : List Cell
  /-- The current cell. -/
  here : Cell
  /-- The cells after the current one, nearest first. -/
  right : List Cell
  deriving DecidableEq

namespace Tape

/-! ## The row -/

/-- The cells, from the first to the last. -/
def cells (t : Tape) : List Cell :=
  t.left.reverse ++ t.here :: t.right

/-- The index of the current cell. -/
def pointer (t : Tape) : Nat :=
  t.left.length

/-- The number of cells. -/
def capacity (t : Tape) : Nat :=
  t.left.length + 1 + t.right.length

theorem length_cells (t : Tape) : t.cells.length = t.capacity := by
  simp only [cells, capacity, List.length_append, List.length_reverse, List.length_cons]
  omega

theorem pointer_lt_capacity (t : Tape) : t.pointer < t.capacity := by
  simp only [pointer, capacity]
  omega

theorem cells_pointer (t : Tape) : t.cells[t.pointer]? = some t.here := by
  simp [cells, pointer]

/-- **A tape is its row and its pointer.** -/
theorem ext_cells {t u : Tape} (hc : t.cells = u.cells) (hp : t.pointer = u.pointer) : t = u := by
  have h := List.append_inj hc (by simpa [pointer] using hp)
  rcases t with ⟨l, x, r⟩
  rcases u with ⟨l', x', r'⟩
  simp_all

/-- The cells that are not zero, each with its index. -/
def nonzero (t : Tape) : List (Nat × Cell) :=
  (t.cells.zipIdx.filter fun c => c.1 ≠ 0).map fun c => (c.2, c.1)

/-! ## Blank tapes -/

/-- The number of cells of a tape if nothing else is asked for. -/
def defaultCapacity : Nat := 30000

/-- A blank tape of `n + 1` cells. -/
def zeros (n : Nat) : Tape :=
  ⟨[], 0, List.replicate n 0⟩

/-- A blank tape of `capacity` cells, at least one. -/
def blank : (capacity : Nat) → Except Fault Tape
  | 0 => .error { cause := .invalidCapacity, detail := "CAPACITY MUST BE POSITIVE" }
  | n + 1 => .ok (zeros n)

instance : Inhabited Tape :=
  ⟨zeros (defaultCapacity - 1)⟩

/-- The blank tape of the same capacity. -/
def clear (t : Tape) : Tape :=
  zeros (t.left.length + t.right.length)

/-! ## Moves and writes -/

/-- The tape with `v` in the current cell. -/
def set (t : Tape) (v : Cell) : Tape :=
  { t with here := v }

theorem cells_set (t : Tape) (v : Cell) : (t.set v).cells = t.cells.set t.pointer v := by
  simp [cells, pointer, set]

/-- The pointer one cell to the left. -/
def back : Tape → Except Fault Tape
  | ⟨l :: left, here, right⟩ => .ok ⟨left, l, here :: right⟩
  | ⟨[], _, _⟩ => .error { cause := .outOfBounds, detail := "POINTER BELOW FIRST CELL" }

theorem cells_of_back {t u : Tape} (h : t.back = .ok u) :
    u.cells = t.cells ∧ u.pointer + 1 = t.pointer := by
  rcases t with ⟨_ | ⟨l, left⟩, here, right⟩
  · simp [back] at h
  · simp only [back, Except.ok.injEq] at h
    subst h
    simp [cells, pointer]

/-- The pointer one cell to the right. -/
def forward : Tape → Except Fault Tape
  | ⟨left, here, r :: right⟩ => .ok ⟨here :: left, r, right⟩
  | ⟨_, _, []⟩ => .error { cause := .outOfBounds, detail := "POINTER PAST LAST CELL" }

theorem cells_of_forward {t u : Tape} (h : t.forward = .ok u) :
    u.cells = t.cells ∧ u.pointer = t.pointer + 1 := by
  rcases t with ⟨left, here, _ | ⟨r, right⟩⟩
  · simp [forward] at h
  · simp only [forward, Except.ok.injEq] at h
    subst h
    simp [cells, pointer]

/-- One more in the current cell. -/
def increment (t : Tape) : Except Fault Tape :=
  match Cell.succ? t.here with
  | some v => .ok (t.set v)
  | none => .error { cause := .overflow }

/-- One less in the current cell. -/
def decrement (t : Tape) : Except Fault Tape :=
  match Cell.pred? t.here with
  | some v => .ok (t.set v)
  | none => .error { cause := .overflow }

end Tape

end MooCode
