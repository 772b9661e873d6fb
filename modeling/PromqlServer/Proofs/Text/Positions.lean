import Mathlib.Data.Prod.Lex
import PromqlServer.Text.Position

/-!
Positions, lines and byte offsets of one text. `Position.after` counts positions character by
character, as the syntax checker does; `offsetAt_after` says that `offset_at` finds the way back,
and `line_at` that the line with the number of a position is the one that goes on there.
-/

namespace PromqlServer.Text

/-! ## The order of positions -/

/-- Positions in the order of the text. -/
instance : Preorder Position := Preorder.lift fun p => toLex (p.line, p.character)

theorem Position.lt_iff {p q : Position} :
    p < q ↔ p.line < q.line ∨ p.line = q.line ∧ p.character < q.character :=
  Prod.Lex.lt_iff

theorem Position.le_iff {p q : Position} :
    p ≤ q ↔ p.line < q.line ∨ p.line = q.line ∧ p.character ≤ q.character :=
  Prod.Lex.le_iff

/-- Where a character ends that starts at `p`. -/
def Position.next (p : Position) (c : Char) : Position :=
  if c = '\n' then ⟨p.line + 1, 0⟩ else ⟨p.line, p.character + units16 c⟩

/-- Where a text ends that starts at `p`. -/
def Position.after (p : Position) (cs : List Char) : Position := cs.foldl Position.next p

/-- Where every text starts. -/
def Position.origin : Position := ⟨0, 0⟩

section After

variable {p : Position} {c : Char} {cs ds : List Char}

@[simp] theorem Position.after_nil : p.after [] = p := rfl

@[simp] theorem Position.after_cons : p.after (c :: cs) = (p.next c).after cs := rfl

theorem Position.after_append : p.after (cs ++ ds) = (p.after cs).after ds := List.foldl_append

theorem units16_pos (c : Char) : 0 < units16 c := by
  unfold units16
  split <;> decide

theorem Position.lt_next : p < p.next c := by
  have hunits := units16_pos c
  rw [Position.lt_iff, Position.next]
  split
  · exact Or.inl (Nat.lt_succ_self _)
  · exact Or.inr ⟨rfl, by simp only; omega⟩

theorem Position.le_after : p ≤ p.after cs := by
  induction cs generalizing p with
  | nil => exact le_refl p
  | cons c cs ih => exact le_trans (le_of_lt Position.lt_next) ih

theorem Position.lt_after (h : cs ≠ []) : p < p.after cs := by
  cases cs with
  | nil => exact absurd rfl h
  | cons c cs => exact lt_of_lt_of_le Position.lt_next Position.le_after

theorem Position.next_of_ne (h : c ≠ '\n') : p.next c = ⟨p.line, p.character + units16 c⟩ :=
  if_neg h

/-- Without a line feed the position stays on its line. -/
theorem Position.after_of_notMem (h : '\n' ∉ cs) :
    p.after cs = ⟨p.line, p.character + width cs⟩ := by
  induction cs generalizing p with
  | nil => rfl
  | cons c cs ih =>
    obtain ⟨hc, hcs⟩ := List.ne_and_not_mem_of_not_mem_cons h
    rw [Position.after_cons, ih hcs, Position.next_of_ne hc.symm, width, Nat.add_assoc]

/-- The line that a text ends on does not depend on the column where it starts. -/
theorem Position.after_line_congr {q : Position} (h : p.line = q.line) :
    (p.after cs).line = (q.after cs).line := by
  induction cs generalizing p q with
  | nil => exact h
  | cons c cs ih =>
    apply ih
    unfold Position.next
    split
    · exact congrArg (· + 1) h
    · exact h

/-- The number of the first line does not matter for what follows. -/
theorem Position.after_below (n : Nat) :
    (Position.mk (p.line + n) p.character).after cs
      = ⟨(p.after cs).line + n, (p.after cs).character⟩ := by
  induction cs generalizing p with
  | nil => rfl
  | cons c cs ih =>
    have hnext : (Position.mk (p.line + n) p.character).next c
        = ⟨(p.next c).line + n, (p.next c).character⟩ := by
      unfold Position.next
      split
      · simp only [Position.mk.injEq, and_true]; omega
      · rfl
    rw [Position.after_cons, hnext, ih, Position.after_cons]

end After

/-- A line in front of a text moves its positions one line down. -/
theorem Position.origin_after_line {l : List Char} (h : '\n' ∉ l) (cs : List Char) :
    Position.origin.after (l ++ '\n' :: cs)
      = ⟨(Position.origin.after cs).line + 1, (Position.origin.after cs).character⟩ := by
  rw [← Position.after_below 1, Position.after_append, Position.after_of_notMem h]
  rfl

/-- Texts by their lines: one that ends without a line feed, or a line in front of a text. -/
theorem line_induction {motive : List Char → Prop} (last : ∀ l, '\n' ∉ l → motive l)
    (more : ∀ l cs, '\n' ∉ l → motive cs → motive (l ++ '\n' :: cs)) (cs : List Char) :
    motive cs := by
  induction hlength : cs.length using Nat.strong_induction_on generalizing cs with
  | _ n ih =>
    by_cases h : '\n' ∈ cs
    · obtain ⟨l, rest, rfl, hl⟩ := List.eq_append_cons_of_mem h
      rw [List.length_append, List.length_cons] at hlength
      exact more l rest hl (ih rest.length (by omega) rest rfl)
    · exact last cs h

/-! ## Lines -/

section Lines

variable {c : Char} {l b cs ds : List Char}

theorem chomp_of_getLast? (h : l.getLast? ≠ some '\n') : chomp l = l := by
  rcases List.eq_nil_or_concat l with rfl | ⟨front, d, rfl⟩
  · rfl
  · have hd : d ≠ '\n' := by simpa using h
    simp [chomp, hd]

/-- What is in front of a line ending stays. -/
theorem chomp_cons (hne : l ≠ []) (h : ¬ (c = '\r' ∧ l = ['\n'])) :
    chomp (c :: l) = c :: chomp l := by
  rcases List.eq_nil_or_concat l with rfl | ⟨front, d, rfl⟩
  · exact absurd rfl hne
  by_cases hd : d = '\n'
  · subst hd
    rcases List.eq_nil_or_concat front with rfl | ⟨more, e, rfl⟩
    · have hc : c ≠ '\r' := fun hc => h ⟨hc, rfl⟩
      simp [chomp, hc]
    · by_cases he : e = '\r' <;> simp [chomp, he]
  · simp [chomp, hd]

/-- The line that a text starts with. -/
def restOfLine (cs : List Char) : List Char := (lines cs).headD []

/-- What follows the first line feed. -/
def linesBelow : List Char → List Char
  | [] => []
  | c :: cs => if c = '\n' then cs else linesBelow cs

theorem pieces_ne_nil (h : cs ≠ []) : pieces cs ≠ [] := by
  intro hnil
  have hflat := flatten_pieces cs
  rw [hnil] at hflat
  exact h hflat.symm

theorem ne_nil_of_mem_pieces (h : l ∈ pieces cs) : l ≠ [] := by
  induction cs generalizing l with
  | nil => cases h
  | cons c cs ih =>
    rw [pieces] at h
    split at h
    · rcases List.mem_cons.1 h with rfl | h
      · exact List.cons_ne_nil _ _
      · exact ih h
    · split at h
      · simp only [List.mem_singleton] at h
        rw [h]
        exact List.cons_ne_nil _ _
      · rename_i hp
        rcases List.mem_cons.1 h with rfl | h
        · exact List.cons_ne_nil _ _
        · exact ih (by rw [hp]; exact List.mem_cons_of_mem _ h)

theorem tail_pieces : (pieces cs).tail = pieces (linesBelow cs) := by
  induction cs with
  | nil => rfl
  | cons c cs ih =>
    rw [pieces, linesBelow]
    split
    · rfl
    · rw [← ih]
      split <;> rename_i hp <;> rw [hp] <;> rfl

/-- A text has a first line, and then the lines after its first line feed. -/
theorem lines_eq (h : cs ≠ []) : lines cs = restOfLine cs :: lines (linesBelow cs) := by
  cases hp : pieces cs with
  | nil => exact absurd hp (pieces_ne_nil h)
  | cons p ps =>
    have htail : ps = pieces (linesBelow cs) := by rw [← tail_pieces, hp, List.tail_cons]
    simp [restOfLine, lines, hp, htail]

@[simp] theorem restOfLine_nil : restOfLine [] = [] := rfl

@[simp] theorem restOfLine_feed : restOfLine ('\n' :: cs) = [] := by
  simp [restOfLine, lines, pieces, chomp]

@[simp] theorem restOfLine_return_feed : restOfLine ('\r' :: '\n' :: cs) = [] := by
  simp [restOfLine, lines, pieces, chomp]

/-- A character that is not part of a line ending belongs to the line. -/
theorem restOfLine_cons (hc : c ≠ '\n') (h : c = '\r' → cs.head? ≠ some '\n') :
    restOfLine (c :: cs) = c :: restOfLine cs := by
  simp only [restOfLine, lines, pieces, if_neg hc]
  cases hp : pieces cs with
  | nil => simp [chomp_of_getLast? (l := [c]) (by simpa using hc)]
  | cons p ps =>
    have hmem : p ∈ pieces cs := by simp [hp]
    have hne : p ≠ [] := ne_nil_of_mem_pieces hmem
    have hfeed : ¬ (c = '\r' ∧ p = ['\n']) := by
      rintro ⟨hr, rfl⟩
      have hflat := flatten_pieces cs
      rw [hp] at hflat
      exact h hr (by rw [← hflat]; rfl)
    simp [chomp_cons hne hfeed]

/-- Text without a line feed belongs to the line, unless it ends inside of a line ending. -/
theorem restOfLine_append (hb : '\n' ∉ b) (h : cs.head? ≠ some '\n') :
    restOfLine (b ++ cs) = b ++ restOfLine cs := by
  induction b with
  | nil => rfl
  | cons c b ih =>
    obtain ⟨hc, hb⟩ := List.ne_and_not_mem_of_not_mem_cons hb
    have hhead : (b ++ cs).head? ≠ some '\n' := by
      cases b with
      | nil => exact h
      | cons d b =>
        intro hd
        exact hb (by simp [Option.some.inj hd])
    rw [List.cons_append, restOfLine_cons hc.symm fun _ => hhead, ih hb, List.cons_append]

/-- A text starts with its line. -/
theorem restOfLine_isPrefix (cs : List Char) : restOfLine cs <+: cs := by
  induction cs with
  | nil => exact List.prefix_refl _
  | cons c cs ih =>
    by_cases hc : c = '\n'
    · rw [hc, restOfLine_feed]
      exact List.nil_prefix
    by_cases hr : c = '\r' ∧ cs.head? = some '\n'
    · obtain ⟨hr, hn⟩ := hr
      obtain ⟨rest, rfl⟩ := List.head?_eq_some_iff.1 hn
      rw [hr, restOfLine_return_feed]
      exact List.nil_prefix
    · rw [restOfLine_cons hc fun h hn => hr ⟨h, hn⟩]
      exact List.cons_prefix_cons.2 ⟨rfl, ih⟩

/-- A text without a first line is empty or starts with a line ending. -/
theorem cases_of_restOfLine (h : restOfLine cs = []) :
    cs = [] ∨ (∃ rest, cs = '\n' :: rest) ∨ ∃ rest, cs = '\r' :: '\n' :: rest := by
  cases cs with
  | nil => exact Or.inl rfl
  | cons c cs =>
    by_cases hc : c = '\n'
    · exact Or.inr (Or.inl ⟨cs, by rw [hc]⟩)
    by_cases hr : c = '\r' ∧ cs.head? = some '\n'
    · obtain ⟨rest, rfl⟩ := List.head?_eq_some_iff.1 hr.2
      exact Or.inr (Or.inr ⟨rest, by rw [hr.1]⟩)
    · rw [restOfLine_cons hc fun h hn => hr ⟨h, hn⟩] at h
      cases h

theorem linesBelow_append (hb : '\n' ∉ b) : linesBelow (b ++ cs) = linesBelow cs := by
  induction b with
  | nil => rfl
  | cons c b ih =>
    obtain ⟨hc, hb⟩ := List.ne_and_not_mem_of_not_mem_cons hb
    rw [List.cons_append, linesBelow, if_neg hc.symm, ih hb]

/-! ### The end of a line -/

/-- The line that `b` stands in ends with it when `cs` follows. -/
def EndsLine (b cs : List Char) : Prop := restOfLine (b ++ cs) = b

theorem endsLine_of_cons (h : EndsLine (c :: b) cs) :
    c ≠ '\n' ∧ (c = '\r' → (b ++ cs).head? ≠ some '\n') ∧ EndsLine b cs := by
  have hline : restOfLine (c :: (b ++ cs)) = c :: b := h
  have hc : c ≠ '\n' := by
    rintro rfl
    rw [restOfLine_feed] at hline
    cases hline
  have hr : c = '\r' → (b ++ cs).head? ≠ some '\n' := by
    rintro rfl hn
    obtain ⟨rest, hrest⟩ := List.head?_eq_some_iff.1 hn
    rw [hrest, restOfLine_return_feed] at hline
    cases hline
  rw [restOfLine_cons hc hr] at hline
  exact ⟨hc, hr, (List.cons.inj hline).2⟩

theorem EndsLine.rest (h : EndsLine b cs) : restOfLine cs = [] := by
  induction b with
  | nil => exact h
  | cons c b ih => exact ih (endsLine_of_cons h).2.2

theorem EndsLine.notMem (h : EndsLine b cs) : '\n' ∉ b := by
  induction b with
  | nil => exact List.not_mem_nil
  | cons c b ih =>
    obtain ⟨hc, -, hb⟩ := endsLine_of_cons h
    exact List.not_mem_cons_of_ne_of_not_mem hc.symm (ih hb)

theorem EndsLine.unique {b' cs' : List Char} (h : EndsLine b cs) (h' : EndsLine b' cs')
    (heq : b ++ cs = b' ++ cs') : b = b' ∧ cs = cs' := by
  have hb : b = b' := by
    calc b = restOfLine (b ++ cs) := h.symm
      _ = restOfLine (b' ++ cs') := by rw [heq]
      _ = b' := h'
  subst hb
  exact ⟨rfl, List.append_cancel_left heq⟩

theorem exists_endsLine (cs : List Char) :
    ∃ line below, cs = line ++ below ∧ EndsLine line below := by
  obtain ⟨below, hbelow⟩ := restOfLine_isPrefix cs
  exact ⟨restOfLine cs, below, hbelow.symm, by rw [EndsLine, hbelow]⟩

/-- Where a line ends depends on the line ending only. -/
theorem EndsLine.congr (h : EndsLine b cs) (hrest : restOfLine ds = [])
    (hhead : ds.head? = some '\n' → cs.head? = some '\n') : EndsLine b ds := by
  induction b with
  | nil => exact hrest
  | cons c b ih =>
    obtain ⟨hc, hr, hb⟩ := endsLine_of_cons h
    have hr' : c = '\r' → (b ++ ds).head? ≠ some '\n' := by
      intro h'
      cases b with
      | nil => exact fun hd => hr h' (hhead hd)
      | cons d b => exact hr h'
    show restOfLine (c :: (b ++ ds)) = c :: b
    rw [restOfLine_cons hc hr', ih hb]

end Lines

/-! ## Byte offsets -/

section Offsets

variable {l b cs : List Char}

@[simp] theorem cutAt_append (a b : List Char) : cutAt (byteSize a) (a ++ b) = some (a, b) := by
  induction a with
  | nil => rw [byteSize, List.nil_append, cutAt]
  | cons c a ih =>
    have hpos : 0 < c.utf8Size := c.utf8Size_pos
    obtain ⟨n, hn⟩ : ∃ n, byteSize (c :: a) = n + 1 := ⟨byteSize (c :: a) - 1, by
      simp only [byteSize]; omega⟩
    have hrest : n + 1 - c.utf8Size = byteSize a := by
      rw [← hn, byteSize]; omega
    have hle : c.utf8Size ≤ n + 1 := by
      rw [← hn, byteSize]; omega
    rw [hn, List.cons_append, cutAt, if_pos hle, hrest, ih, Option.map_some]

theorem lineFeedEnd_append (h : '\n' ∉ l) :
    lineFeedEnd (l ++ '\n' :: cs) = some (byteSize (l ++ ['\n'])) := by
  induction l with
  | nil => rfl
  | cons c l ih =>
    obtain ⟨hc, hl⟩ := List.ne_and_not_mem_of_not_mem_cons h
    rw [List.cons_append, lineFeedEnd, if_neg hc.symm, ih hl, Option.map_some, List.cons_append,
      byteSize]

/-- A line below the first one starts in the text below the first line feed. -/
theorem lineStart_below (h : '\n' ∉ l) (line : Nat) :
    lineStart (line + 1) (l ++ '\n' :: cs)
      = (lineStart line cs).map fun found => (byteSize (l ++ ['\n']) + found.1, found.2) := by
  have hdrop : dropBytes (byteSize (l ++ ['\n'])) (l ++ '\n' :: cs) = some cs := by
    have htext : l ++ '\n' :: cs = (l ++ ['\n']) ++ cs := List.append_cons l '\n' cs
    rw [dropBytes, htext, cutAt_append, Option.map_some]
  simp only [lineStart, lineFeedEnd_append h, hdrop, Option.bind_eq_bind, Option.bind_some]
  cases lineStart line cs with
  | none => rfl
  | some found => rfl

/-- A position below a line is found in the text below it. -/
theorem offsetAt_below (h : '\n' ∉ l) (line character : Nat) :
    offsetAt (l ++ '\n' :: cs) ⟨line + 1, character⟩
      = (offsetAt cs ⟨line, character⟩).map (byteSize (l ++ ['\n']) + ·) := by
  simp only [offsetAt, lineStart_below h]
  cases lineStart line cs with
  | none => rfl
  | some found => simp [Nat.add_assoc]

theorem columnOffset_width (h : '\n' ∉ l) (units : Nat) :
    columnOffset (units + width l) units (l ++ b) = byteSize l := by
  induction l generalizing units with
  | nil => cases b <;> simp [columnOffset, width, byteSize]
  | cons c l ih =>
    obtain ⟨hc, hl⟩ := List.ne_and_not_mem_of_not_mem_cons h
    have hpos := units16_pos c
    have hle : ¬ units + width (c :: l) ≤ units := by rw [width]; omega
    rw [List.cons_append, columnOffset, width, ← Nat.add_assoc, ih hl, byteSize]
    simp [hc.symm]
    omega

/-- The position where a part of a text ends is found at its length in bytes. -/
theorem offsetAt_after (a b : List Char) :
    offsetAt (a ++ b) (Position.origin.after a) = some (byteSize a) := by
  induction a using line_induction with
  | last l hl =>
    have hcolumn := columnOffset_width (b := b) hl 0
    rw [Nat.zero_add] at hcolumn
    simp [Position.after_of_notMem hl, Position.origin, offsetAt, lineStart, hcolumn]
  | more l a hl ih =>
    rw [Position.origin_after_line hl, List.append_assoc, List.cons_append, offsetAt_below hl, ih,
      Option.map_some, ← byteSize_append, ← List.append_cons]

/-- The line with the number of a position goes on there with the rest of the text. -/
theorem line_at (a b : List Char) (h : restOfLine b ≠ []) :
    ∃ front, (lines (a ++ b))[(Position.origin.after a).line]? = some (front ++ restOfLine b)
      ∧ width front = (Position.origin.after a).character := by
  induction a using line_induction with
  | last l hl =>
    have hhead : b.head? ≠ some '\n' := by
      intro hn
      obtain ⟨rest, rfl⟩ := List.head?_eq_some_iff.1 hn
      exact h restOfLine_feed
    have hne : l ++ b ≠ [] := by
      intro hnil
      rw [(List.append_eq_nil_iff.1 hnil).2] at h
      exact h rfl
    refine ⟨l, ?_, ?_⟩
    · rw [Position.after_of_notMem hl, lines_eq hne, restOfLine_append hl hhead]
      rfl
    · rw [Position.after_of_notMem hl]
      simp [Position.origin]
  | more l a hl ih =>
    obtain ⟨front, hline, hwidth⟩ := ih
    have hlines : lines (l ++ '\n' :: a ++ b)
        = restOfLine (l ++ '\n' :: (a ++ b)) :: lines (a ++ b) := by
      rw [List.append_assoc, List.cons_append, lines_eq (by simp), linesBelow_append hl]
      rfl
    refine ⟨front, ?_, ?_⟩
    · rw [Position.origin_after_line hl, hlines, List.getElem?_cons_succ, hline]
    · rw [Position.origin_after_line hl, hwidth]

end Offsets

end PromqlServer.Text
