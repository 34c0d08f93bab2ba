/-
  Moo-code console — output.

  * `Sink`: where bytes go in the end.  It may come to refuse them.
  * `Output`: a sink with a buffer before it.  Bytes are passed on in order; a
    refusal shows when the buffer is emptied.
-/
namespace MooCode.Console

/-- Where bytes go in the end. -/
structure Sink where
  /-- How many more bytes it takes, if there is a limit. -/
  room : Option Nat
  /-- The bytes it has taken. -/
  received : Array UInt8
  deriving DecidableEq

namespace Sink

/-- A sink that has taken nothing yet. -/
def empty (room : Option Nat) : Sink :=
  ⟨room, #[]⟩

/-- The sink after the bytes `bs`, and those of them it refused. -/
def put : Sink → (bs : List UInt8) → Sink × List UInt8
  | ⟨none, received⟩, bs => (⟨none, received ++ bs⟩, [])
  | ⟨some room, received⟩, bs =>
    (⟨some (room - bs.length), received ++ bs.take room⟩, bs.drop room)

end Sink

/-- When a buffer is emptied, apart from when it is full. -/
inductive Buffering where
  /-- After every line. -/
  | line
  /-- Only when it is asked for. -/
  | block
  deriving DecidableEq

/-- The number of bytes a buffer holds. -/
def Buffering.capacity : Buffering → Nat
  | line => 1024
  | block => 8192

/-- A sink with a buffer before it. -/
structure Output where
  /-- When the buffer is emptied. -/
  buffering : Buffering
  /-- The bytes in the buffer. -/
  pending : Array UInt8
  /-- Where they go. -/
  sink : Sink
  deriving DecidableEq

namespace Output

/-- An output that nothing has been written to. -/
def empty (buffering : Buffering) (room : Option Nat) : Output :=
  ⟨buffering, #[], .empty room⟩

/-- The buffer emptied, and whether the sink took all of it. -/
def flush : Output → Output × Bool
  | ⟨buffering, pending, sink⟩ =>
    let (sink, refused) := sink.put pending.toList
    (⟨buffering, refused.toArray, sink⟩, refused.isEmpty)

/-- The bytes `bs` passed by the buffer, which is empty, and whether the sink took
    all of them. -/
def pass : Output → (bs : List UInt8) → Output × Bool
  | ⟨buffering, pending, sink⟩, bs =>
    let (sink, refused) := sink.put bs
    (⟨buffering, pending, sink⟩, refused.isEmpty)

/-- The bytes `bs` put into the buffer, which has room for them, or passed by it
    if they alone would fill it. -/
def hold (o : Output) (bs : List UInt8) : Output × Bool :=
  if bs.length < o.buffering.capacity then
    match o with
    | ⟨buffering, pending, sink⟩ => (⟨buffering, pending ++ bs, sink⟩, true)
  else o.pass bs

/-- The bytes `bs` put into the buffer, which is emptied first if there is no room
    for them. -/
def store (o : Output) (bs : List UInt8) : Output × Bool :=
  if o.pending.size + bs.length ≤ o.buffering.capacity then o.hold bs
  else
    match o.flush with
    | (o, true) => o.hold bs
    | (o, false) => (o, false)

/-- The bytes `bs` up to the last newline, and those after it. -/
def splitLines (bs : List UInt8) : List UInt8 × List UInt8 :=
  let tail := (bs.reverse.takeWhile (· ≠ 0x0A)).reverse
  (bs.take (bs.length - tail.length), tail)

/-- The bytes `bs` written, where everything up to the last newline leaves the
    buffer at once. -/
def writeLines (o : Output) (bs : List UInt8) : Output × Bool :=
  match splitLines bs with
  | ([], tail) => o.store tail
  | (lines, tail) =>
    match o.store lines with
    | (o, false) => (o, false)
    | (o, true) =>
      match o.flush with
      | (o, false) => (o, false)
      | (o, true) => o.store tail

/-- The bytes `bs` written, and whether the sink refused none that it met. -/
def write (o : Output) (bs : List UInt8) : Output × Bool :=
  match o.buffering with
  | .line => o.writeLines bs
  | .block => o.store bs

end Output

end MooCode.Console
