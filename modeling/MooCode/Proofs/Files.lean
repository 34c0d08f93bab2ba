/-
  Moo-code — what an output leaves in the tree.

  * `FileTree.find?_insert`: what stands where after something has been put into a place.
  * `Node.holding bs n`: what stands in a place that has been written to, and
    `FileTree.find?_write_truncate`: a place made ready and written to holds the bytes, and no other
    place has changed.
  * `openChannel_place`: an output that is opened goes to a place that is no directory.
-/
import MooCode.Console.Command

namespace MooCode.Console

/-- What stands in a place after the bytes `bs` have been written to it, where `n` was before: a
    device holds nothing. -/
def Node.holding (bs : List UInt8) : (n : Option Node) → Node
  | some (.device room) => .device room
  | _ => .file bs

namespace FileTree

theorem lookup_filter_ne {p q : Place} (h : q ≠ p) (nodes : List (Place × Node)) :
    (nodes.filter fun e => e.1 ≠ p).lookup q = nodes.lookup q := by
  induction nodes with
  | nil => rfl
  | cons e nodes ih =>
    obtain ⟨place, n⟩ := e
    by_cases hp : place = p
    · subst hp
      rw [List.filter_cons_of_neg (by simp), ih, List.lookup_cons, beq_eq_false_iff_ne.2 h]
    · rw [List.filter_cons_of_pos (by simpa using hp), List.lookup_cons, List.lookup_cons, ih]

/-- **What stands where** after `n` has been put into the place `p`. -/
theorem find?_insert (t : FileTree) {p : Place} (hp : p ≠ []) (n : Node) (q : Place) :
    (t.insert p n).find? q = if q = p then some n else t.find? q := by
  by_cases hq : q = p
  · subst hq
    simp [find?, insert, hp]
  · have hl : (t.insert p n).nodes.lookup q = t.nodes.lookup q := by
      rw [insert, List.lookup_cons, beq_eq_false_iff_ne.2 hq]
      exact lookup_filter_ne hq t.nodes
    rw [if_neg hq, find?, find?, hl]

theorem find?_truncate (t : FileTree) {p : Place} (hp : p ≠ []) (q : Place) :
    (t.truncate p).find? q = if q = p then some (.holding [] (t.find? p)) else t.find? q := by
  rcases ht : t.find? p with _ | _ | _ | room
  case some.device =>
    by_cases hq : q = p
    · simp [truncate, ht, hq, Node.holding]
    · simp [truncate, ht, hq]
  all_goals simp [truncate, ht, find?_insert t hp, Node.holding]

/-- **A place made ready and written to holds the bytes**, and no other place has changed. -/
theorem find?_write_truncate (t : FileTree) {p : Place} (hp : p ≠ []) (bs : List UInt8)
    (q : Place) : ((t.truncate p).write p bs).find? q =
      if q = p then some (.holding bs (t.find? p)) else t.find? q := by
  have hready := find?_truncate t hp p
  rw [if_pos rfl] at hready
  rcases ht : t.find? p with _ | _ | _ | room
  case some.device =>
    rw [ht] at hready
    simp only [write, hready, Node.holding, find?_truncate t hp, ht]
  all_goals
    rw [ht] at hready
    simp only [write, hready, Node.holding, find?_insert _ hp, find?_truncate t hp]
    split <;> rfl

theorem home_write_truncate (t : FileTree) (p : Place) (bs : List UInt8) :
    ((t.truncate p).write p bs).home = t.home := by
  have ht : (t.truncate p).home = t.home := by
    unfold truncate
    split <;> rfl
  unfold write
  split <;> exact ht

/-- Nothing is written to a directory. -/
theorem destination_ne_directory {t : FileTree} {path : String} {p : Place}
    (h : t.destination path = .ok p) : t.find? p ≠ some .directory := by
  simp only [destination] at h
  split at h
  · next parent _ =>
    -- a path with a slash at its end leads nowhere that can be written to
    cases hf : t.follow (t.names path).1 (parent ++ ["."]) with
    | error | ok => rw [hf] at h; cases h
  · cases hf : t.follow (t.names path).1 (t.names path).2 with
    | error => rw [hf] at h; cases h
    | ok place =>
      simp only [hf, bind, Except.bind] at h
      split at h
      · cases h
      · next hd =>
        cases h
        exact hd

end FileTree

theorem openChannel_stdout {t t' : FileTree} {output : Option String}
    (h : openChannel t output = .ok (.stdout, t')) : t' = t := by
  cases output with
  | none => cases h; rfl
  | some path =>
    simp only [openChannel] at h
    split at h <;> cases h

/-- An output that is opened goes to a place that is no directory. -/
theorem openChannel_place {t t' : FileTree} {output : Option String} {p : Place}
    (h : openChannel t output = .ok (.place p, t')) : t' = t.truncate p ∧ p ≠ [] := by
  cases output with
  | none => cases h
  | some path =>
    simp only [openChannel] at h
    split at h
    · next place hd =>
      cases h
      refine ⟨rfl, ?_⟩
      rintro rfl
      exact FileTree.destination_ne_directory hd rfl
    · cases h

end MooCode.Console
