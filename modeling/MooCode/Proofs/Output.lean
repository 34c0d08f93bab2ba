/-
  Moo-code — outputs keep what is written to them.

  * `Sink.limit s`: how many bytes `s` takes in all.
  * `Output.written o`: the bytes that have gone into `o`, in the sink or still in the
    buffer.
  * `Output.Takes o bs after`: if `after` says that the bytes `bs` have been taken, they have
    gone into the output, after those before; and if it says that they have been refused, the
    sink is full and lacks some of them.  `flush_takes`, `write_takes`: so it is with a flush
    and with every write.
-/
import Mathlib.Data.List.Infix
import MooCode.Console.Output

namespace MooCode.Console

/-- A sink has taken what it has not refused. -/
theorem Sink.received_put (s : Sink) (bs : List UInt8) :
    (s.put bs).1.received.toList ++ (s.put bs).2 = s.received.toList ++ bs := by
  obtain ⟨_ | room, received⟩ := s
  · simp [put]
  · simp [put]

/-- How many bytes the sink takes in all, if there is a limit. -/
def Sink.limit (s : Sink) : Option Nat :=
  s.room.map (· + s.received.size)

theorem Sink.limit_put (s : Sink) (bs : List UInt8) : (s.put bs).1.limit = s.limit := by
  obtain ⟨_ | room, received⟩ := s
  · rfl
  · have hs : (received ++ bs.take room).size = received.size + min room bs.length := by
      rw [← Array.length_toList, Array.toList_appendList]
      simp
    simp only [limit, put, Option.map_some, Option.some.injEq, hs]
    omega

/-- A sink that refuses bytes is full. -/
theorem Sink.room_put {s : Sink} {bs : List UInt8} (h : (s.put bs).2 ≠ []) :
    (s.put bs).1.room = some 0 := by
  obtain ⟨_ | room, received⟩ := s
  · exact absurd rfl h
  · have hlt : room < bs.length := by simpa [put] using h
    simp only [put, Option.some.injEq]
    omega

/-- What a sink that refuses bytes has taken is not all there was. -/
theorem Sink.received_put_of_ne {s : Sink} {bs : List UInt8} (h : (s.put bs).2 ≠ []) :
    (s.put bs).1.received.toList <+: s.received.toList ++ bs ∧
      (s.put bs).1.received.size < (s.received.toList ++ bs).length := by
  have hr := s.received_put bs
  refine ⟨⟨_, hr⟩, ?_⟩
  have hl := List.length_pos_iff.2 h
  rw [← hr, List.length_append, Array.length_toList]
  omega

namespace Output

/-- The bytes that have gone into the output. -/
def written (o : Output) : List UInt8 :=
  o.sink.received.toList ++ o.pending.toList

/-- The output and the answer `after` of an output `o` that the bytes `bs` were given to:
    if it says so it has taken them, and if not the sink is full and lacks some of them. -/
structure Takes (o : Output) (bs : List UInt8) (after : Output × Bool) : Prop where
  limit : after.1.sink.limit = o.sink.limit
  written : after.2 = true → after.1.written = o.written ++ bs
  refused : after.2 = false → after.1.sink.room = some 0 ∧
    after.1.sink.received.toList <+: o.written ++ bs ∧
      after.1.sink.received.size < (o.written ++ bs).length

/-- An output whose sink has no limit takes everything. -/
theorem Takes.unlimited {o : Output} {bs : List UInt8} {after : Output × Bool}
    (h : o.Takes bs after) (hr : o.sink.room = none) :
    after.1.sink.room = none ∧ after.2 = true := by
  have hl := h.limit
  rw [Sink.limit, Sink.limit, hr, Option.map_none, Option.map_eq_none_iff] at hl
  refine ⟨hl, Bool.of_not_eq_false fun hf => ?_⟩
  rw [(h.refused hf).1] at hl
  cases hl

theorem Takes.refused_mono {o o' : Output} {bs cs : List UInt8} (h : o.Takes bs (o', false))
    (hp : bs <+: cs) : o.Takes cs (o', false) := by
  obtain ⟨rest, rfl⟩ := hp
  obtain ⟨hr, hpre, hlt⟩ := h.refused rfl
  refine ⟨h.limit, ?_, fun _ => ⟨hr, ?_, ?_⟩⟩
  · intro ht
    cases ht
  · rw [← List.append_assoc]
    exact hpre.trans (List.prefix_append _ rest)
  · rw [← List.append_assoc, List.length_append]
    omega

theorem Takes.trans {o o' : Output} {bs cs : List UInt8} {after : Output × Bool}
    (h : o.Takes bs (o', true)) (h' : o'.Takes cs after) : o.Takes (bs ++ cs) after where
  limit := h'.limit.trans h.limit
  written ht := by rw [h'.written ht, h.written rfl, List.append_assoc]
  refused hf := by
    have hr := h'.refused hf
    rwa [h.written rfl, List.append_assoc] at hr

theorem flush_takes (o : Output) : o.Takes [] o.flush := by
  obtain ⟨buffering, pending, sink⟩ := o
  refine ⟨sink.limit_put _, fun _ => ?_, fun hf => ?_⟩
  · have := sink.received_put pending.toList
    simpa [flush, written] using this
  · have hne : (sink.put pending.toList).2 ≠ [] := by simpa [flush] using hf
    rw [List.append_nil]
    exact ⟨Sink.room_put hne, Sink.received_put_of_ne hne⟩

theorem pending_flush {o o' : Output} (h : o.flush = (o', true)) : o'.pending = #[] := by
  obtain ⟨buffering, pending, sink⟩ := o
  simp only [flush, Prod.mk.injEq, List.isEmpty_iff] at h
  obtain ⟨rfl, hr⟩ := h
  simp [hr]

/-- Bytes that are passed by the buffer keep their place only if it is empty. -/
theorem hold_takes {o : Output} {bs : List UInt8}
    (h : bs.length < o.buffering.capacity ∨ o.pending = #[]) : o.Takes bs (o.hold bs) := by
  obtain ⟨buffering, pending, sink⟩ := o
  unfold hold
  split
  · refine ⟨rfl, fun _ => ?_, fun hf => ?_⟩
    · simp [written]
    · cases hf
  · next hlt =>
    obtain rfl : pending = #[] := h.resolve_left hlt
    refine ⟨sink.limit_put _, fun ht => ?_, fun hf => ?_⟩
    · simp only [pass, List.isEmpty_iff] at ht
      have := sink.received_put bs
      rw [ht] at this
      simpa [pass, written] using this
    · have hne : (sink.put bs).2 ≠ [] := by simpa [pass] using hf
      simp only [written, List.append_nil]
      exact ⟨Sink.room_put hne, Sink.received_put_of_ne hne⟩

theorem store_takes (o : Output) (bs : List UInt8) : o.Takes bs (o.store bs) := by
  unfold store
  split
  · next hle =>
    refine hold_takes ?_
    rcases Nat.lt_or_ge bs.length o.buffering.capacity with hlt | hge
    · exact Or.inl hlt
    · exact Or.inr (Array.eq_empty_of_size_eq_zero (by omega))
  · have hf := o.flush_takes
    split
    · next heq =>
      rw [heq] at hf
      exact hf.trans (hold_takes (Or.inr (pending_flush heq)))
    · next heq =>
      rw [heq] at hf
      exact hf.refused_mono ⟨bs, rfl⟩

theorem splitLines_append (bs : List UInt8) : (splitLines bs).1 ++ (splitLines bs).2 = bs := by
  have hs : (bs.reverse.takeWhile (· ≠ 0x0A)).reverse <:+ bs := by
    rw [← List.reverse_prefix, List.reverse_reverse]
    exact List.takeWhile_prefix _
  exact List.suffix_iff_eq_append.1 hs

theorem writeLines_takes (o : Output) (bs : List UInt8) : o.Takes bs (o.writeLines bs) := by
  have hb := splitLines_append bs
  unfold writeLines
  split
  · next tail hs =>
    rw [hs] at hb
    exact hb ▸ o.store_takes tail
  · next lines tail _ hs =>
    rw [hs] at hb
    have hl := o.store_takes lines
    split
    · next heq =>
      rw [heq] at hl
      exact hl.refused_mono ⟨tail, hb⟩
    · next o₁ heq =>
      rw [heq] at hl
      have hf := o₁.flush_takes
      split
      · next heq =>
        rw [heq] at hf
        exact (hl.trans hf).refused_mono ⟨tail, by rw [List.append_nil, hb]⟩
      · next o₂ heq =>
        rw [heq] at hf
        have := (hl.trans hf).trans (o₂.store_takes tail)
        rwa [List.append_nil, hb] at this

/-- **What is written to an output goes into it, after all that was written before.** -/
theorem write_takes (o : Output) (bs : List UInt8) : o.Takes bs (o.write bs) := by
  unfold write
  split
  · exact o.writeLines_takes bs
  · exact o.store_takes bs

end Output

end MooCode.Console
