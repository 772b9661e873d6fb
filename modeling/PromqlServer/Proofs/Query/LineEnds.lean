import PromqlServer.Proofs.Query.Braces

/-!
Columns behind the end of a line. `offset_at` takes such a column for the place in front of the line
feed (`columnOffset_full`). That is where the line ends, unless it ends in a carriage return and a
line feed: then the carriage return is passed over, and it counts as typed text.
-/

namespace PromqlServer.Text

/-! ## The text above a line -/

/-- The text in front of line `n`. -/
def textAbove (cs : List Char) (n : Nat) : List Char := ((pieces cs).take n).flatten

section Lines

variable {a b cs above line below : List Char} {n l character units : Nat}

theorem pieces_append (h : '\n' ∉ a) : pieces (a ++ '\n' :: cs) = (a ++ ['\n']) :: pieces cs := by
  induction a with
  | nil => simp [pieces]
  | cons c a ih =>
    obtain ⟨hc, ha⟩ := List.ne_and_not_mem_of_not_mem_cons h
    rw [List.cons_append, pieces, if_neg hc.symm, ih ha]
    rfl

theorem textAbove_succ (h : '\n' ∉ a) :
    textAbove (a ++ '\n' :: cs) (n + 1) = a ++ '\n' :: textAbove cs n := by
  simp [textAbove, pieces_append h]

/-- The first line of a text is what it starts with. -/
theorem first_line_cut (h : (lines cs)[0]? = some line) :
    ∃ below, cs = line ++ below ∧ EndsLine line below := by
  have hne : cs ≠ [] := by
    rintro rfl
    cases h
  rw [lines_eq hne, List.getElem?_cons_zero, Option.some.injEq] at h
  obtain ⟨below, hbelow⟩ := restOfLine_isPrefix cs
  rw [← h]
  exact ⟨below, hbelow.symm, by rw [EndsLine, hbelow]⟩

/-- Line `n` of a text starts behind the text above it, at column zero. -/
theorem line_cut (h : (lines cs)[n]? = some line) :
    ∃ below, cs = textAbove cs n ++ (line ++ below) ∧ EndsLine line below ∧
      Position.origin.after (textAbove cs n) = ⟨n, 0⟩ := by
  induction cs using line_induction generalizing n with
  | last a ha =>
    cases n with
    | zero =>
      obtain ⟨below, hcut, hends⟩ := first_line_cut h
      exact ⟨below, hcut, hends, rfl⟩
    | succ n =>
      -- there is one line at most
      have hbelow : linesBelow a = [] := by
        rw [← List.append_nil a, linesBelow_append ha]
        rfl
      cases a with
      | nil => cases h
      | cons c a =>
        rw [lines_eq (List.cons_ne_nil c a), hbelow, List.getElem?_cons_succ] at h
        cases h
  | more a cs ha ih =>
    cases n with
    | zero =>
      obtain ⟨below, hcut, hends⟩ := first_line_cut h
      exact ⟨below, hcut, hends, rfl⟩
    | succ n =>
      rw [lines_eq (by simp), linesBelow_append ha, List.getElem?_cons_succ] at h
      obtain ⟨below, hcut, hends, hstart⟩ := ih h
      refine ⟨below, ?_, hends, ?_⟩
      · rw [textAbove_succ ha, List.append_assoc, List.cons_append, ← hcut]
      · rw [textAbove_succ ha, Position.origin_after_line ha, hstart]

/-- A column is counted from the start of its line. -/
theorem offsetAt_lineStart (h : Position.origin.after above = ⟨l, 0⟩) :
    offsetAt (above ++ cs) ⟨l, character⟩
      = some (byteSize above + columnOffset character 0 cs) := by
  induction above using line_induction generalizing l with
  | last a ha =>
    rw [Position.after_of_notMem ha, Position.mk.injEq] at h
    cases a with
    | nil =>
      rw [← h.1, byteSize, Nat.zero_add, List.nil_append]
      exact offsetAt_first cs character
    | cons c a =>
      have hpos := units16_pos c
      rw [width] at h
      omega
  | more a above ha ih =>
    rw [Position.origin_after_line ha, Position.mk.injEq] at h
    have hstart : Position.origin.after above = ⟨(Position.origin.after above).line, 0⟩ := by
      rw [← h.2]
    rw [← h.1, List.append_assoc, List.cons_append, offsetAt_below ha, ih hstart, Option.map_some,
      ← Nat.add_assoc, ← byteSize_append, ← List.append_cons]

/-! ## Columns behind the end -/

/-- A column behind the end is found in front of the line feed. -/
theorem columnOffset_full (ha : '\n' ∉ a) (hb : ∀ c ∈ b.head?, c = '\n')
    (hpast : units + width a ≤ character) : columnOffset character units (a ++ b) = byteSize a := by
  induction a generalizing units with
  | nil =>
    cases b with
    | nil => rfl
    | cons c b =>
      have hc : c = '\n' := hb c rfl
      simp [columnOffset, hc, byteSize]
  | cons c a ih =>
    obtain ⟨hc, ha⟩ := List.ne_and_not_mem_of_not_mem_cons ha
    have hpos := units16_pos c
    rw [width] at hpast
    have hstop : (decide (character ≤ units) || decide (c = '\n')) = false := by
      simp only [Bool.or_eq_false_iff, decide_eq_false_iff_not]
      exact ⟨by omega, hc.symm⟩
    rw [List.cons_append, columnOffset, if_neg (by rw [hstop]; exact Bool.false_ne_true),
      ih ha (by omega), byteSize]

/-- What a column behind the end of a line passes over. -/
def passedOver (line below : List Char) (character : Nat) : List Char :=
  if width line < character ∧ ['\r', '\n'] <+: below then ['\r'] else []

theorem columnOffset_past (h : EndsLine line below) (hpast : width line ≤ character) :
    columnOffset character 0 (line ++ below)
      = byteSize (line ++ passedOver line below character) := by
  have hline : '\n' ∉ line := h.notMem
  rcases cases_of_restOfLine h.rest with rfl | ⟨rest, rfl⟩ | ⟨rest, rfl⟩
  · rw [columnOffset_full hline (by simp) (by omega), passedOver, if_neg (by simp), List.append_nil]
  · rw [columnOffset_full hline (by simp) (by omega), passedOver, if_neg (by simp), List.append_nil]
  · by_cases hlt : width line < character
    · have hreturn : '\n' ∉ line ++ ['\r'] := by simp [hline]
      have hwidth : 0 + width (line ++ ['\r']) ≤ character := by
        rw [width_append]
        show 0 + (width line + 1) ≤ character
        omega
      rw [passedOver, if_pos ⟨hlt, by simp⟩, List.append_cons,
        columnOffset_full hreturn (by simp) hwidth]
    · -- the column is where the carriage return stands
      have heq : character = 0 + width line := by omega
      rw [passedOver, if_neg (fun hboth => hlt hboth.1), List.append_nil, heq,
        columnOffset_width hline 0]

theorem passedOver_eq_nil (h : character = width line ∨ ¬ ['\r', '\n'] <+: below) :
    passedOver line below character = [] := by
  rcases h with heq | hnot
  · exact if_neg fun hboth => Nat.ne_of_gt hboth.1 heq
  · exact if_neg fun hboth => hnot hboth.2

/-- Where the columns at and behind the end of a line are. -/
theorem offsetAt_past_line (h : (lines cs)[n]? = some line) :
    ∃ below, cs = textAbove cs n ++ line ++ below ∧ EndsLine line below ∧
      ∀ character, width line ≤ character → offsetAt cs ⟨n, character⟩
        = some (byteSize (textAbove cs n ++ line ++ passedOver line below character)) := by
  obtain ⟨below, hcut, hends, hstart⟩ := line_cut h
  refine ⟨below, by rwa [List.append_assoc], hends, fun character hpast => ?_⟩
  calc offsetAt cs ⟨n, character⟩
      = offsetAt (textAbove cs n ++ (line ++ below)) ⟨n, character⟩ := by rw [← hcut]
    _ = some (byteSize (textAbove cs n) + columnOffset character 0 (line ++ below)) :=
        offsetAt_lineStart hstart
    _ = some (byteSize (textAbove cs n ++ line ++ passedOver line below character)) := by
        rw [columnOffset_past hends hpast, ← byteSize_append, List.append_assoc]

end Lines

end PromqlServer.Text

namespace PromqlServer.Query

open PromqlServer.Text

/-- A column at or behind the end of a line is the end of the line, and what is typed there is what
is typed at the end; but behind the end of a line that ends in a carriage return and a line feed it
is the place between the two, and what is typed there has the carriage return at its end. -/
theorem columns_past_line_end {content : String} {l character : Nat} {line : List Char}
    (hline : (lines content.toList)[l]? = some line) (hpast : width line ≤ character) :
    ∃ below, content.toList = textAbove content.toList l ++ line ++ below ∧
      EndsLine line below ∧
      offsetAt content.toList ⟨l, width line⟩
        = some (byteSize (textAbove content.toList l ++ line)) ∧
      (character = width line ∨ ¬ ['\r', '\n'] <+: below →
        offsetAt content.toList ⟨l, character⟩
            = some (byteSize (textAbove content.toList l ++ line)) ∧
          completionContext content.toList ⟨l, character⟩
            = completionContext content.toList ⟨l, width line⟩) ∧
      (width line < character → ['\r', '\n'] <+: below →
        offsetAt content.toList ⟨l, character⟩
            = some (byteSize (textAbove content.toList l ++ line) + 1) ∧
          completionContext content.toList ⟨l, character⟩
            = contextAfter (textAbove content.toList l ++ line ++ ['\r'])) := by
  obtain ⟨below, hcut, hends, hoffset⟩ := offsetAt_past_line hline
  have hend := hoffset (width line) (Nat.le_refl _)
  rw [passedOver_eq_nil (Or.inl rfl), List.append_nil] at hend
  have hcolumn := hoffset character hpast
  refine ⟨below, hcut, hends, hend, fun hnot => ?_, fun hlt hreturn => ?_⟩
  · rw [passedOver_eq_nil hnot, List.append_nil] at hcolumn
    exact ⟨hcolumn, by rw [completionContext_eq hcut hcolumn, completionContext_eq hcut hend]⟩
  · rw [passedOver, if_pos ⟨hlt, hreturn⟩] at hcolumn
    obtain ⟨rest, rfl⟩ := hreturn
    have hsplit : content.toList
        = textAbove content.toList l ++ line ++ ['\r'] ++ '\n' :: rest :=
      hcut.trans (List.append_cons _ '\r' ('\n' :: rest))
    exact ⟨by rw [hcolumn, byteSize_append]; rfl, completionContext_eq hsplit hcolumn⟩

/-- Far behind the end of a line that ends in a line feed, below one that ends in both. -/
theorem columns_past_line_end_feed :
    completionContext "sum(\r\nup\n)".toList ⟨1, 9⟩ = some (.metricName "up") := by
  obtain ⟨below, hcut, -, -, hend, -⟩ :=
    @columns_past_line_end "sum(\r\nup\n)" 1 9 ['u', 'p'] (by decide) (by decide)
  have habove : textAbove "sum(\r\nup\n)".toList 1 = ['s', 'u', 'm', '(', '\r', '\n'] := by decide
  rw [habove] at hcut
  have hsplit : ['s', 'u', 'm', '(', '\r', '\n', 'u', 'p'] ++ ['\n', ')']
      = ['s', 'u', 'm', '(', '\r', '\n', 'u', 'p'] ++ below := hcut
  have hbelow : below = ['\n', ')'] := (List.append_cancel_left hsplit).symm
  rw [(hend (Or.inr (by rw [hbelow]; decide))).2]
  decide

/-- A column behind the end of a line passes over a carriage return, and the name in front of it is
not found. -/
theorem carriage_return_passed_over :
    (lines "up\r\n".toList)[0]? = some ['u', 'p'] ∧
      offsetAt "up\r\n".toList ⟨0, 3⟩ = some 3 ∧
      completionContext "up\r\n".toList ⟨0, 2⟩ = some (.metricName "up") ∧
      completionContext "up\r\n".toList ⟨0, 3⟩ = some (.metricName "") := by
  decide

end PromqlServer.Query
