/-
  Moo-code — characters as bytes.

  * `encode cs`: the UTF-8 bytes of a text.
  * `decode bs`: the characters of a byte sequence.  A maximal ill-formed piece
    (a character that begins well and breaks off, or a byte that begins none)
    is one `none`.
  * `decodeAll? bs`: the text of well-formed bytes, and `decodeLossy bs`: a text
    of any bytes, with U+FFFD for each ill-formed piece.

  The decoder is an automaton.  Between two bytes it either stands between
  characters or holds the character it has begun (`Begun`).
-/
namespace MooCode.Text.Utf8

/-- The UTF-8 bytes of the text `cs`. -/
def encode (cs : List Char) : List UInt8 :=
  cs.flatMap String.utf8EncodeChar

/-! ## The automaton -/

/-- A character of which some bytes have been read. -/
structure Begun where
  /-- How many bytes are owed after the next one. -/
  owed : Nat
  /-- The least next byte that goes on with the character. -/
  low : UInt8
  /-- The greatest next byte that goes on with the character. -/
  high : UInt8
  /-- The bits read so far. -/
  bits : Nat

/-- A step of the automaton: the pieces that the byte completes, and the
    character it leaves begun. -/
abbrev Move := List (Option Char) × Option Begun

/-- The byte `b` read between characters.  The range of the second byte leaves
    out overlong forms, surrogates and values past U+10FFFF. -/
def start (b : UInt8) : Move :=
  let n := b.toNat
  if n < 0x80 then ([some (Char.ofNat n)], none)
  else if n < 0xC2 then ([none], none)
  else if n < 0xE0 then ([], some ⟨0, 0x80, 0xBF, n - 0xC0⟩)
  else if n = 0xE0 then ([], some ⟨1, 0xA0, 0xBF, 0⟩)
  else if n = 0xED then ([], some ⟨1, 0x80, 0x9F, 0x0D⟩)
  else if n < 0xF0 then ([], some ⟨1, 0x80, 0xBF, n - 0xE0⟩)
  else if n = 0xF0 then ([], some ⟨2, 0x90, 0xBF, 0⟩)
  else if n < 0xF4 then ([], some ⟨2, 0x80, 0xBF, n - 0xF0⟩)
  else if n = 0xF4 then ([], some ⟨2, 0x80, 0x8F, 4⟩)
  else ([none], none)

/-- The byte `b` read within the range that the begun character `p` asks for. -/
def Begun.extend (p : Begun) (b : UInt8) : Move :=
  let bits := p.bits * 64 + (b.toNat - 0x80)
  match p.owed with
  | 0 => ([some (Char.ofNat bits)], none)
  | owed + 1 => ([], some ⟨owed, 0x80, 0xBF, bits⟩)

/-- The byte `b` read in any state.  A byte out of range breaks the begun
    character off and is then read between characters. -/
def step : Option Begun → UInt8 → Move
  | none, b => start b
  | some p, b =>
    if p.low ≤ b ∧ b ≤ p.high then p.extend b
    else (none :: (start b).1, (start b).2)

/-- The pieces of the bytes `bs` read in a given state; a character that is
    begun when the bytes run out is ill-formed. -/
def decodeFrom : Option Begun → List UInt8 → List (Option Char)
  | none, [] => []
  | some _, [] => [none]
  | p, b :: bs => (step p b).1 ++ decodeFrom (step p b).2 bs

/-! ## Decoding -/

/-- The characters of the bytes `bs`, with `none` for each maximal ill-formed
    piece. -/
def decode (bs : List UInt8) : List (Option Char) :=
  decodeFrom none bs

/-- The text of well-formed bytes. -/
def decodeAll? (bs : List UInt8) : Option (List Char) :=
  (decode bs).mapM id

/-- The text of any bytes, with U+FFFD for each ill-formed piece. -/
def decodeLossy (bs : List UInt8) : List Char :=
  (decode bs).map fun c => c.getD '\uFFFD'

end MooCode.Text.Utf8
