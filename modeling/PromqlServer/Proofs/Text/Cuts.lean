import PromqlServer.Proofs.Text.Positions

/-!
Cuts of a text: at the offset that `offset_at` finds for a position, which never lies inside a
character (`offsetAt_cut`), and in front of the longest suffix of some form.
-/

namespace PromqlServer.Text

/-! ## At an offset -/

section Offsets

variable {a b cs : List Char} {p : Position} {n : Nat}

@[simp] theorem takeBytes_append : takeBytes (byteSize a) (a ++ b) = some a := by
  rw [takeBytes, cutAt_append, Option.map_some]

@[simp] theorem dropBytes_append : dropBytes (byteSize a) (a ++ b) = some b := by
  rw [dropBytes, cutAt_append, Option.map_some]

/-- A column ends between two characters, in front of the line feed. -/
theorem columnOffset_cut (character units : Nat) (cs : List Char) :
    ∃ a b, cs = a ++ b ∧ '\n' ∉ a ∧ columnOffset character units cs = byteSize a := by
  induction cs generalizing units with
  | nil => exact ⟨[], [], rfl, List.not_mem_nil, rfl⟩
  | cons c cs ih =>
    rw [columnOffset]
    split
    · exact ⟨[], c :: cs, rfl, List.not_mem_nil, rfl⟩
    · rename_i hstop
      simp only [Bool.or_eq_true, decide_eq_true_eq, not_or] at hstop
      obtain ⟨a, b, hcs, ha, hsize⟩ := ih (units + units16 c)
      refine ⟨c :: a, b, by rw [hcs]; rfl, ?_, by rw [hsize]; rfl⟩
      exact List.not_mem_cons_of_ne_of_not_mem (Ne.symm hstop.2) ha

theorem offsetAt_first (cs : List Char) (character : Nat) :
    offsetAt cs ⟨0, character⟩ = some (columnOffset character 0 cs) := by
  simp [offsetAt, lineStart]

theorem lineFeedEnd_of_notMem (h : '\n' ∉ cs) : lineFeedEnd cs = none := by
  induction cs with
  | nil => rfl
  | cons c cs ih =>
    obtain ⟨hc, hcs⟩ := List.ne_and_not_mem_of_not_mem_cons h
    rw [lineFeedEnd, if_neg hc.symm, ih hcs, Option.map_none]

theorem count_line (h : '\n' ∉ a) : (a ++ '\n' :: cs).count '\n' = cs.count '\n' + 1 := by
  rw [List.count_append, List.count_eq_zero.2 h, List.count_cons_self, Nat.zero_add]

/-- The line where a text ends is told by its line feeds. -/
theorem Position.origin_after_count (cs : List Char) :
    (Position.origin.after cs).line = cs.count '\n' := by
  induction cs using line_induction with
  | last l hl =>
    rw [Position.after_of_notMem hl, List.count_eq_zero.2 hl]
    rfl
  | more l cs hl ih => rw [Position.origin_after_line hl, count_line hl, ih]

/-- A text has a line for each of its line feeds, which starts behind it. -/
theorem lineStart_cut (h : n ≤ cs.count '\n') :
    ∃ above text, cs = above ++ text ∧ above.count '\n' = n ∧
      lineStart n cs = some (byteSize above, text) := by
  induction cs using line_induction generalizing n with
  | last l hl =>
    rw [List.count_eq_zero.2 hl, Nat.le_zero] at h
    exact ⟨[], l, rfl, h.symm, by rw [h]; rfl⟩
  | more l cs hl ih =>
    cases n with
    | zero => exact ⟨[], l ++ '\n' :: cs, rfl, rfl, rfl⟩
    | succ n =>
      rw [count_line hl] at h
      obtain ⟨above, text, rfl, hcount, hstart⟩ := ih (Nat.le_of_succ_le_succ h)
      refine ⟨l ++ '\n' :: above, text, by simp, by rw [count_line hl, hcount], ?_⟩
      rw [lineStart_below hl, hstart, Option.map_some, List.append_cons l '\n' above,
        byteSize_append (l ++ ['\n']) above]

theorem lineStart_past (h : cs.count '\n' < n) : lineStart n cs = none := by
  induction cs using line_induction generalizing n with
  | last l hl =>
    cases n with
    | zero => exact absurd h (Nat.not_lt_zero _)
    | succ n => simp [lineStart, lineFeedEnd_of_notMem hl]
  | more l cs hl ih =>
    rw [count_line hl] at h
    cases n with
    | zero => exact absurd h (Nat.not_lt_zero _)
    | succ n => rw [lineStart_below hl, ih (Nat.lt_of_succ_lt_succ h), Option.map_none]

/-- A position is found between two characters of its line. -/
theorem offsetAt_found (h : p.line ≤ cs.count '\n') :
    ∃ before after, cs = before ++ after ∧ before.count '\n' = p.line ∧
      offsetAt cs p = some (byteSize before) := by
  obtain ⟨above, text, rfl, hcount, hstart⟩ := lineStart_cut h
  obtain ⟨a, b, rfl, ha, hcolumn⟩ := columnOffset_cut p.character 0 text
  refine ⟨above ++ a, b, (List.append_assoc above a b).symm, ?_, ?_⟩
  · rw [List.count_append, hcount, List.count_eq_zero.2 ha, Nat.add_zero]
  · simp [offsetAt, hstart, hcolumn]

/-- There is no position below the last line. -/
theorem offsetAt_past (h : (Position.origin.after cs).line < p.line) : offsetAt cs p = none := by
  rw [Position.origin_after_count] at h
  rw [offsetAt, lineStart_past h]
  rfl

theorem offsetAt_eq_none_iff : offsetAt cs p = none ↔ cs.count '\n' < p.line := by
  constructor
  · intro hnone
    by_contra hline
    obtain ⟨before, after, -, -, hsome⟩ := offsetAt_found (Nat.le_of_not_lt hline)
    rw [hnone] at hsome
    cases hsome
  · intro hline
    exact offsetAt_past (by rwa [Position.origin_after_count])

/-- The offset of a position cuts the text on the line of the position. -/
theorem offsetAt_line (h : offsetAt cs p = some n) :
    ∃ before after, cs = before ++ after ∧ n = byteSize before ∧ before.count '\n' = p.line := by
  have hline : p.line ≤ cs.count '\n' := by
    by_contra hpast
    rw [offsetAt_eq_none_iff.2 (Nat.lt_of_not_le hpast)] at h
    cases h
  obtain ⟨before, after, hcut, hcount, hsome⟩ := offsetAt_found hline
  exact ⟨before, after, hcut, Option.some.inj (h.symm.trans hsome), hcount⟩

/-- The offset of a position cuts the text between two characters. -/
theorem offsetAt_cut (h : offsetAt cs p = some n) :
    ∃ before after, cs = before ++ after ∧ n = byteSize before := by
  obtain ⟨before, after, hcut, hsize, -⟩ := offsetAt_line h
  exact ⟨before, after, hcut, hsize⟩

/-- A position below a line is found from the next line on. -/
theorem offsetAt_lines (a cs : List Char) (line character : Nat) :
    offsetAt (a ++ '\n' :: cs) ⟨(Position.origin.after a).line + 1 + line, character⟩
      = (offsetAt cs ⟨line, character⟩).map (byteSize (a ++ ['\n']) + ·) := by
  induction a using line_induction with
  | last l hl =>
    rw [Position.after_of_notMem hl, ← offsetAt_below hl]
    congr 2
    exact Nat.add_comm _ _
  | more l a hl ih =>
    have hline : (Position.origin.after (l ++ '\n' :: a)).line + 1 + line
        = (Position.origin.after a).line + 1 + line + 1 := by
      rw [Position.origin_after_line hl]
      simp only
      omega
    rw [hline, List.append_assoc, List.cons_append, offsetAt_below hl, ih, Option.map_map]
    congr 1
    funext n
    simp only [Function.comp, byteSize_append, byteSize]
    omega

theorem width_lt_of_columnOffset {character units : Nat}
    (h : byteSize a < columnOffset character units (a ++ b)) :
    '\n' ∉ a ∧ units + width a < character := by
  induction a generalizing units with
  | nil =>
    refine ⟨List.not_mem_nil, ?_⟩
    cases b with
    | nil => exact absurd h (Nat.lt_irrefl _)
    | cons c b =>
      rw [List.nil_append, columnOffset] at h
      split at h
      · exact absurd h (Nat.lt_irrefl _)
      · rename_i hstop
        simp only [Bool.or_eq_true, decide_eq_true_eq, not_or] at hstop
        simpa [width] using hstop.1
  | cons c a ih =>
    rw [List.cons_append, columnOffset] at h
    split at h
    · exact absurd h (Nat.not_lt_zero _)
    · rename_i hstop
      simp only [Bool.or_eq_true, decide_eq_true_eq, not_or] at hstop
      obtain ⟨ha, hwidth⟩ := ih (Nat.lt_of_add_lt_add_left h)
      refine ⟨List.not_mem_cons_of_ne_of_not_mem (Ne.symm hstop.2) ha, ?_⟩
      rw [width]
      omega

/-- What is in front of the offset of a position is in front of the position. -/
theorem lt_of_offsetAt (h : offsetAt (a ++ b) p = some n) (hn : byteSize a < n) :
    Position.origin.after a < p := by
  obtain ⟨line, character⟩ := p
  induction a using line_induction generalizing line n with
  | last l hl =>
    rw [Position.after_of_notMem hl, Position.lt_iff]
    cases line with
    | zero =>
      rw [offsetAt_first] at h
      cases h
      exact Or.inr ⟨rfl, (width_lt_of_columnOffset hn).2⟩
    | succ line => exact Or.inl (Nat.succ_pos line)
  | more l a hl ih =>
    rw [Position.origin_after_line hl, Position.lt_iff]
    cases line with
    | zero =>
      rw [offsetAt_first] at h
      cases h
      exact absurd (by simp) (width_lt_of_columnOffset hn).1
    | succ line =>
      rw [List.append_assoc, List.cons_append, offsetAt_below hl] at h
      obtain ⟨m, hm, rfl⟩ := Option.map_eq_some_iff.1 h
      have hlt : byteSize a < m := by
        simp only [byteSize_append, byteSize] at hn
        omega
      have habove := Position.lt_iff.1 (ih hlt line hm)
      simp only at habove ⊢
      omega

end Offsets

/-! ## In front of a suffix -/

/-- The last character of the text, if there is one, does not satisfy `p`. -/
def Stops (p : Char → Bool) (cs : List Char) : Prop := ∀ c ∈ cs.getLast?, p c = false

section Suffixes

variable {p : Char → Bool} {a b cs : List Char}

theorem stops_dropSuffix (p : Char → Bool) (cs : List Char) : Stops p (dropSuffix p cs) := by
  intro c hc
  rw [dropSuffix, List.getLast?_reverse] at hc
  have hhead := List.head?_dropWhile_not p cs.reverse
  rw [hc] at hhead
  simpa using hhead

theorem dropSuffix_append_longestSuffix (p : Char → Bool) (cs : List Char) :
    dropSuffix p cs ++ longestSuffix p cs = cs := by
  rw [dropSuffix, longestSuffix, ← List.reverse_append, List.takeWhile_append_dropWhile,
    List.reverse_reverse]

theorem of_mem_longestSuffix {c : Char} (h : c ∈ longestSuffix p cs) : p c = true := by
  rw [longestSuffix, List.mem_reverse] at h
  exact List.all_eq_true.1 List.all_takeWhile c h

/-- There is one cut behind which all characters satisfy `p` and in front of which the last one
does not. -/
theorem dropSuffix_of_stops (ha : Stops p a) (hb : ∀ c ∈ b, p c = true) :
    dropSuffix p (a ++ b) = a := by
  rw [dropSuffix, List.reverse_append, List.dropWhile_append_of_pos (by simpa using hb)]
  rcases List.eq_nil_or_concat a with rfl | ⟨front, c, rfl⟩
  · rfl
  · have hc : p c = false := ha c (by simp)
    simp [hc]

theorem longestSuffix_of_stops (ha : Stops p a) (hb : ∀ c ∈ b, p c = true) :
    longestSuffix p (a ++ b) = b := by
  have hwhole := dropSuffix_append_longestSuffix p (a ++ b)
  rw [dropSuffix_of_stops ha hb] at hwhole
  exact List.append_cancel_left hwhole

theorem stops_append (hb : Stops p b) (hne : b ≠ []) : Stops p (a ++ b) := by
  intro c hc
  rcases List.eq_nil_or_concat b with rfl | ⟨front, d, rfl⟩
  · exact absurd rfl hne
  · apply hb
    simpa using hc

theorem dropSuffix_ne_nil (h : ∃ c ∈ b, p c = false) : dropSuffix p b ≠ [] := by
  intro hnil
  obtain ⟨c, hc, hp⟩ := h
  have hwhole := dropSuffix_append_longestSuffix p b
  rw [hnil, List.nil_append] at hwhole
  rw [← hwhole] at hc
  rw [of_mem_longestSuffix hc] at hp
  cases hp

theorem dropSuffix_eq_nil_iff : dropSuffix p cs = [] ↔ ∀ c ∈ cs, p c = true := by
  constructor
  · intro hnil c hc
    by_contra hp
    rw [Bool.not_eq_true] at hp
    exact dropSuffix_ne_nil ⟨c, hc, hp⟩ hnil
  · intro hall
    exact dropSuffix_of_stops (a := []) (by simp [Stops]) hall

theorem stops_append_dropSuffix (h : ∃ c ∈ b, p c = false) : Stops p (a ++ dropSuffix p b) :=
  stops_append (stops_dropSuffix p b) (dropSuffix_ne_nil h)

/-- What stands in front of a character that ends the suffix does not matter. -/
theorem dropSuffix_append (h : ∃ c ∈ b, p c = false) :
    dropSuffix p (a ++ b) = a ++ dropSuffix p b := by
  calc dropSuffix p (a ++ b)
      = dropSuffix p ((a ++ dropSuffix p b) ++ longestSuffix p b) := by
        rw [List.append_assoc, dropSuffix_append_longestSuffix]
    _ = a ++ dropSuffix p b :=
        dropSuffix_of_stops (stops_append_dropSuffix h) fun _ => of_mem_longestSuffix

theorem longestSuffix_append (h : ∃ c ∈ b, p c = false) :
    longestSuffix p (a ++ b) = longestSuffix p b := by
  calc longestSuffix p (a ++ b)
      = longestSuffix p ((a ++ dropSuffix p b) ++ longestSuffix p b) := by
        rw [List.append_assoc, dropSuffix_append_longestSuffix]
    _ = longestSuffix p b :=
        longestSuffix_of_stops (stops_append_dropSuffix h) fun _ => of_mem_longestSuffix

/-- The longest suffix does not go on over a character that ends it. -/
theorem longestSuffix_append_of_stops (ha : Stops p a) :
    longestSuffix p (a ++ b) = longestSuffix p b := by
  have hstops : Stops p (a ++ dropSuffix p b) := by
    by_cases hnil : dropSuffix p b = []
    · rwa [hnil, List.append_nil]
    · exact stops_append (stops_dropSuffix p b) hnil
  calc longestSuffix p (a ++ b)
      = longestSuffix p ((a ++ dropSuffix p b) ++ longestSuffix p b) := by
        rw [List.append_assoc, dropSuffix_append_longestSuffix]
    _ = longestSuffix p b := longestSuffix_of_stops hstops fun _ => of_mem_longestSuffix

/-- Every suffix of characters that satisfy `p` is part of the longest one. -/
theorem suffix_longestSuffix (h : a <:+ cs) (ha : ∀ c ∈ a, p c = true) :
    a <:+ longestSuffix p cs := by
  rw [longestSuffix, ← List.reverse_prefix, List.reverse_reverse]
  rw [← List.reverse_prefix] at h
  obtain ⟨rest, hrest⟩ := h
  rw [← hrest, List.takeWhile_append_of_pos (by simpa using ha)]
  exact List.prefix_append _ _

end Suffixes

/-! ## At the last of some character -/

section Last

variable {c : Char} {a b a' b' cs : List Char}

theorem exists_last_cut (h : c ∈ cs) : ∃ a b, cs = a ++ c :: b ∧ c ∉ b := by
  obtain ⟨b, a, heq, hb⟩ := List.eq_append_cons_of_mem (List.mem_reverse.2 h)
  refine ⟨a.reverse, b.reverse, ?_, by simpa using hb⟩
  rw [← cs.reverse_reverse, heq]
  simp

theorem last_cut_unique (hb : c ∉ b) (hb' : c ∉ b') (h : a ++ c :: b = a' ++ c :: b') :
    a = a' ∧ b = b' := by
  have hstops : ∀ front : List Char, Stops (· != c) (front ++ [c]) :=
    fun front => stops_append (by simp [Stops]) (by simp)
  have hall : ∀ {rest : List Char}, c ∉ rest → ∀ d ∈ rest, (d != c) = true := by
    intro rest hrest d hd
    rw [bne_iff_ne]
    rintro rfl
    exact hrest hd
  rw [List.append_cons, List.append_cons a'] at h
  have hfront : a ++ [c] = a' ++ [c] := by
    rw [← dropSuffix_of_stops (hstops a) (hall hb), h, dropSuffix_of_stops (hstops a') (hall hb')]
  rw [hfront] at h
  exact ⟨List.append_cancel_right hfront, List.append_cancel_left h⟩

end Last

/-! ## The longest suffix of some form -/

/-- The longest suffix of the text that has the form `P`; `none` if no suffix has it. -/
def Longest (P : List Char → Prop) (text : List Char) : Option (List Char) → Prop
  | none => ∀ v, v <:+ text → ¬ P v
  | some w => w <:+ text ∧ P w ∧ ∀ v, v <:+ text → P v → v <:+ w

theorem Longest.unique {P : List Char → Prop} {text : List Char} {w w' : Option (List Char)}
    (h : Longest P text w) (h' : Longest P text w') : w = w' := by
  cases w with
  | none =>
    cases w' with
    | none => rfl
    | some w' => exact absurd h'.2.1 (h w' h'.1)
  | some w =>
    cases w' with
    | none => exact absurd h.2.1 (h' w h.1)
    | some w' =>
      have hle := (h'.2.2 w h.1 h.2.1).length_le
      have hsuffix := h.2.2 w' h'.1 h'.2.1
      rw [hsuffix.eq_of_length_le hle]

end PromqlServer.Text
