/-!
Text as a list of characters: its length in UTF-8 bytes and in UTF-16 units, cuts at byte
offsets, and its lines.
-/

namespace PromqlServer.Text

/-- UTF-16 units of one character. -/
def units16 (c : Char) : Nat :=
  if c.val ≤ 0xFFFF then 1 else 2

/-- Length in UTF-16 units. -/
def width : List Char → Nat
  | [] => 0
  | c :: cs => units16 c + width cs

/-- Length in UTF-8 bytes. -/
def byteSize : List Char → Nat
  | [] => 0
  | c :: cs => c.utf8Size + byteSize cs

@[simp] theorem width_append (a b : List Char) : width (a ++ b) = width a + width b := by
  induction a with
  | nil => simp [width]
  | cons c cs ih => simp only [List.cons_append, width, ih]; omega

@[simp] theorem byteSize_append (a b : List Char) :
    byteSize (a ++ b) = byteSize a + byteSize b := by
  induction a with
  | nil => simp [byteSize]
  | cons c cs ih => simp only [List.cons_append, byteSize, ih]; omega

/-- The text cut at a byte offset; there is no cut inside a character or past the end. -/
def cutAt : Nat → List Char → Option (List Char × List Char)
  | 0, cs => some ([], cs)
  | _ + 1, [] => none
  | n + 1, c :: cs =>
    if c.utf8Size ≤ n + 1 then (cutAt (n + 1 - c.utf8Size) cs).map fun (a, b) => (c :: a, b)
    else none

/-- The first `n` bytes. -/
def takeBytes (n : Nat) (cs : List Char) : Option (List Char) :=
  (cutAt n cs).map Prod.fst

/-- All but the first `n` bytes. -/
def dropBytes (n : Nat) (cs : List Char) : Option (List Char) :=
  (cutAt n cs).map Prod.snd

/-- The text in pieces, each of which ends with its line feed, the last one perhaps without. -/
def pieces : List Char → List (List Char)
  | [] => []
  | c :: cs =>
    if c = '\n' then [c] :: pieces cs
    else match pieces cs with
      | [] => [[c]]
      | p :: ps => (c :: p) :: ps

/-- The pieces make up the whole text. -/
@[simp] theorem flatten_pieces (cs : List Char) : (pieces cs).flatten = cs := by
  induction cs with
  | nil => rfl
  | cons c cs ih =>
    rw [pieces]
    split
    · simp [ih]
    · split
      · rename_i h
        rw [h] at ih
        simp [← ih]
      · rename_i h
        rw [h] at ih
        simp [← ih]

/-- A piece without its line ending: a line feed, or a carriage return and a line feed. -/
def chomp (piece : List Char) : List Char :=
  match piece.reverse with
  | '\n' :: '\r' :: rest => rest.reverse
  | '\n' :: rest => rest.reverse
  | _ => piece

/-- The lines, without their endings. A text that ends in a line feed has no empty last line. -/
def lines (cs : List Char) : List (List Char) :=
  (pieces cs).map chomp

/-- Text divided at every `sep`; the empty text is one empty piece. -/
def splitAt (sep : Char) : List Char → List (List Char)
  | [] => [[]]
  | c :: cs =>
    if c = sep then [] :: splitAt sep cs
    else match splitAt sep cs with
      | [] => [[c]]
      | p :: ps => (c :: p) :: ps

/-- The longest suffix whose characters all satisfy `p`. -/
def longestSuffix (p : Char → Bool) (cs : List Char) : List Char :=
  (cs.reverse.takeWhile p).reverse

/-- The text without its longest suffix of characters that satisfy `p`. -/
def dropSuffix (p : Char → Bool) (cs : List Char) : List Char :=
  (cs.reverse.dropWhile p).reverse

end PromqlServer.Text
