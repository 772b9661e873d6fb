import PromqlServer.Text.Measure

/-!
Positions in a document, counted as editors count them: lines from zero, columns in UTF-16 units.
`offsetAt` is `offset_at`, which finds the byte offset of a position.
-/

namespace PromqlServer.Text

structure Position where
  line : Nat
  character : Nat
  deriving DecidableEq, Repr

structure Range where
  start : Position
  stop : Position
  deriving DecidableEq, Repr

/-- The range of `width` units that starts at `start`, on one line. -/
def Range.ofWidth (start : Position) (width : Nat) : Range :=
  ⟨start, { start with character := start.character + width }⟩

/-- Bytes up to and with the first line feed. -/
def lineFeedEnd : List Char → Option Nat
  | [] => none
  | c :: cs => if c = '\n' then some c.utf8Size else (lineFeedEnd cs).map (c.utf8Size + ·)

/-- Byte offset of the start of a line, and the text from there on. -/
def lineStart : Nat → List Char → Option (Nat × List Char)
  | 0, cs => some (0, cs)
  | n + 1, cs => do
    let stop ← lineFeedEnd cs
    let rest ← dropBytes stop cs
    let (start, text) ← lineStart n rest
    return (stop + start, text)

/-- Bytes from the start of a line to a column; a column past the line's end is its end, and one
inside a character is the end of that character. -/
def columnOffset (character : Nat) : Nat → List Char → Nat
  | _, [] => 0
  | units, c :: cs =>
    if character ≤ units || c = '\n' then 0
    else c.utf8Size + columnOffset character (units + units16 c) cs

/-- Byte offset of a position, if the text has that line. -/
def offsetAt (content : List Char) (p : Position) : Option Nat := do
  let (start, text) ← lineStart p.line content
  return start + columnOffset p.character 0 text

end PromqlServer.Text
