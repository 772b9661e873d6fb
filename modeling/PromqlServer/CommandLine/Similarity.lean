/-!
How similar two words are, by the characters that they share at about the same place and the order
in which these come.
-/

namespace PromqlServer.CommandLine

/-- A fraction, never of zero. -/
structure Ratio where
  part : Nat
  whole : Nat
  deriving DecidableEq, Repr

def Ratio.le (a b : Ratio) : Bool := a.part * b.whole ≤ b.part * a.whole

def Ratio.lt (a b : Ratio) : Bool := a.part * b.whole < b.part * a.whole

/-- The first free place of `c` from `low` up to `high`. -/
def freePlace (c : Char) (low high : Nat) (b : List Char) (taken : List Nat) : Option Nat :=
  (b.zipIdx.find? fun (d, j) => low ≤ j && j < high && d = c && !taken.contains j).map Prod.snd

/-- The places of the first word that have a partner, each with its partner. -/
def partners (a b : List Char) : List (Nat × Nat) :=
  let reach := max a.length b.length / 2 - 1
  a.zipIdx.foldl (fun found (c, i) =>
    match freePlace c (i - reach) (i + reach + 1) b (found.map Prod.snd) with
    | some j => found ++ [(i, j)]
    | none => found) []

/-- The similarity of two words: the mean of the shares of the two words that have partners and the
share of the partners that are in order. -/
def similarity (a b : List Char) : Ratio :=
  if a.isEmpty && b.isEmpty then ⟨1, 1⟩
  else
    let found := partners a b
    let m := found.length
    if m = 0 then ⟨0, 1⟩
    else
      let left := found.filterMap fun pair => a[pair.1]?
      let places := (found.map Prod.snd).mergeSort fun i j => decide (i ≤ j)
      let right := places.filterMap fun j => b[j]?
      let t := ((left.zip right).filter fun (c, d) => c ≠ d).length / 2
      ⟨m * m * b.length + m * m * a.length + (m - t) * a.length * b.length,
        3 * a.length * b.length * m⟩

/-- Words count as similar above this. -/
def threshold : Ratio := ⟨7, 10⟩

/-- The most similar of some words, if it is similar enough; of equal ones the last. -/
def mostSimilar? (word : String) (words : List String) : Option String :=
  (words.foldl (fun best candidate =>
    let score := similarity word.toList candidate.toList
    if threshold.lt score && (best.all fun b => b.2.le score) then some (candidate, score)
    else best) (none : Option (String × Ratio))).map Prod.fst

end PromqlServer.CommandLine
