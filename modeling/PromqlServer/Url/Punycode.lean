/-!
Punycode: text of any characters written with letters, digits and hyphens. Characters outside ASCII
are written as differences, in increasing order, by digits whose weights adapt to what came before.
-/

namespace PromqlServer.Url.Punycode

def digitChar (d : Nat) : Char :=
  if d < 26 then Char.ofNat (97 + d) else Char.ofNat (22 + d)

def digitValue (c : Char) : Option Nat :=
  let n := c.toNat
  if 97 ≤ n && n ≤ 122 then some (n - 97)
  else if 65 ≤ n && n ≤ 90 then some (n - 65)
  else if 48 ≤ n && n ≤ 57 then some (n - 22)
  else none

/-- Threshold of the digit at weight step `k`. -/
def threshold (k bias : Nat) : Nat :=
  if k ≤ bias then 1 else if bias + 26 ≤ k then 26 else k - bias

theorem threshold_pos (k bias : Nat) : 1 ≤ threshold k bias := by
  unfold threshold
  split
  · omega
  · split <;> omega

theorem threshold_le (k bias : Nat) : threshold k bias ≤ 26 := by
  unfold threshold
  split
  · omega
  · split <;> omega

def shrink (delta k : Nat) : Nat × Nat :=
  if 455 < delta then shrink (delta / 35) (k + 36) else (delta, k)
termination_by delta
decreasing_by exact Nat.div_lt_self (by omega) (by omega)

/-- The bias after a difference is written, when `count` characters are out. -/
def adapt (delta count : Nat) (first : Bool) : Nat :=
  let d := if first then delta / 700 else delta / 2
  let (d, k) := shrink (d + d / count) 0
  k + 36 * d / (d + 38)

def writeDelta (bias k q : Nat) : List Char :=
  let t := threshold k bias
  if q < t then [digitChar q]
  else digitChar (t + (q - t) % (36 - t)) :: writeDelta bias (k + 36) ((q - t) / (36 - t))
termination_by q
decreasing_by
  have h1 := threshold_pos k bias
  have h2 := threshold_le k bias
  calc (q - threshold k bias) / (36 - threshold k bias)
      ≤ q - threshold k bias := Nat.div_le_self _ _
    _ < q := by omega

structure Encoder where
  out : List Char
  delta : Nat
  bias : Nat
  count : Nat

/-- One character of the input while those equal to `m` are written; `basic` counts the ASCII
characters. -/
def Encoder.visit (basic m : Nat) (e : Encoder) (c : Char) : Encoder :=
  if c.toNat < m then { e with delta := e.delta + 1 }
  else if c.toNat = m then
    { out := e.out ++ writeDelta e.bias 36 e.delta, delta := 0,
      bias := adapt e.delta (e.count + 1) (e.count = basic), count := e.count + 1 }
  else e

def encodeFrom (input : List Char) (basic : Nat) : List Nat → Nat → Encoder → Encoder
  | [], _, e => e
  | m :: ms, n, e =>
    let e := { e with delta := e.delta + (m - n) * (e.count + 1) }
    let e := input.foldl (Encoder.visit basic m) e
    encodeFrom input basic ms (m + 1) { e with delta := e.delta + 1 }

def encode (input : List Char) : List Char :=
  let basic := input.filter (·.toNat < 128)
  let others := ((input.map Char.toNat).filter (128 ≤ ·)).eraseDups.mergeSort
  let start : Encoder := ⟨[], 0, 72, basic.length⟩
  basic ++ (if basic.isEmpty then [] else ['-']) ++ (encodeFrom input basic.length others 128 start).out

/-- The next difference and the rest of the digits. -/
def readDelta (bias : Nat) : List Char → Nat → Nat → Nat → Option (Nat × List Char)
  | [], _, _, _ => none
  | c :: cs, k, weight, sum => do
    let d ← digitValue c
    let t := threshold k bias
    if d < t then some (sum + d * weight, cs)
    else readDelta bias cs (k + 36) (weight * (36 - t)) (sum + d * weight)

def decodeFrom : Nat → List Char → Nat → Nat → Nat → List Char → Option (List Char)
  | 0, _, _, _, _, _ => none
  | fuel + 1, digits, n, i, bias, out =>
    if digits.isEmpty then some out
    else do
      let (delta, rest) ← readDelta bias digits 36 1 0
      let size := out.length + 1
      let place := i + delta
      let code := n + place / size
      let slot := place % size
      if code.isValidChar then
        decodeFrom fuel rest code (slot + 1) (adapt delta size (i = 0))
          (out.take slot ++ Char.ofNat code :: out.drop slot)
      else none

/-- The text that a Punycode text stands for. -/
def decode (input : List Char) : Option (List Char) :=
  let tail := (input.reverse.takeWhile (· ≠ '-')).reverse
  let basic := (input.reverse.dropWhile (· ≠ '-')).reverse.dropLast
  if input.all (·.toNat < 128) then decodeFrom (input.length + 1) tail 128 0 72 basic else none

end PromqlServer.Url.Punycode
