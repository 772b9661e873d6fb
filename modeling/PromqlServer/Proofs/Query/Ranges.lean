import PromqlServer.Proofs.Query.Findings

/-!
The ranges that the syntax checker reports, read back with `offset_at`: each covers the text that
its message is about (`ranges_cover`).
-/

namespace PromqlServer.Query

open PromqlServer.Text

/-- The part of a lexeme that a fault is shown at: the delimiter that is at fault, the whole of a
string up to the end of its line, or the opening quote of a raw string. -/
inductive ShownAt : Fault → Lexeme → List Char → Prop
  | unexpected {c : Char} {expected : Option Char} : isCloser c = true →
      ShownAt (.unexpected c expected) (.delimiter c) [c]
  | unclosed {c : Char} : isOpener c = true → ShownAt (.unclosed c) (.delimiter c) [c]
  | unterminated {quote : Char} {body : List Char} : isQuote quote = true →
      isRawQuote quote = false → ShownAt .unterminated (.unfinished quote body) (quote :: body)
  | unterminatedRaw {quote : Char} {body : List Char} : isRawQuote quote = true →
      ShownAt .unterminatedRaw (.unfinished quote body) [quote]

/-- A range covers `text`, which stands behind `before` on one line. -/
structure Covers (content : List Char) (range : Range) (before text : List Char) : Prop where
  split : ∃ rest, content = before ++ text ++ rest
  start : offsetAt content range.start = some (byteSize before)
  stop : offsetAt content range.stop = some (byteSize (before ++ text))
  lt : byteSize before < byteSize (before ++ text)
  line : range.stop.line = range.start.line
  notMem : '\n' ∉ text

/-- From `p` to its end, the line of the text is `rest`. -/
def LineFrom (content : List Char) (p : Position) (rest : List Char) : Prop :=
  ∃ front, (lines content)[p.line]? = some (front ++ rest) ∧ width front = p.character

/-! ## Where lexemes stand -/

section Places

variable {p : Position} {t : Token} {l : Lexeme} {ls ls' : List Lexeme} {cs : List Char}

/-- A lexeme stands behind the text of those before it. -/
theorem split_of_mem_tokensFrom (h : t ∈ tokensFrom p ls) :
    ∃ before after, ls = before ++ t.lexeme :: after ∧ t.start = p.after (textOf before) := by
  induction ls generalizing p with
  | nil => cases h
  | cons l ls ih =>
    rcases List.mem_cons.1 h with rfl | h
    · exact ⟨[], ls, rfl, rfl⟩
    · obtain ⟨before, after, rfl, hstart⟩ := ih h
      exact ⟨l :: before, after, rfl, by rw [hstart, textOf_cons, Position.after_append]⟩

theorem Reads.tail (h : Reads cs (l :: ls)) : Reads (textOf ls) ls := by
  cases h with
  | ordinary _ h | delimiter _ h | comment _ h | literal _ _ h | unfinished _ _ _ _ h =>
    rw [h.textOf_eq]
    exact h
  | unfinishedRaw => exact .nil

theorem Reads.drop (h : Reads cs (ls ++ ls')) : Reads (textOf ls') ls' := by
  induction ls generalizing cs with
  | nil =>
    have htext : textOf ls' = cs := h.textOf_eq
    rwa [htext]
  | cons l ls ih => exact ih h.tail

theorem Reads.unfinished_inv {quote : Char} {body : List Char} (hraw : isRawQuote quote = false)
    (h : Reads cs (.unfinished quote body :: ls)) :
    isQuote quote = true ∧ EndsLine body (textOf ls) := by
  cases h with
  | unfinished hq _ _ hend h =>
    rw [h.textOf_eq]
    exact ⟨hq, hend⟩
  | unfinishedRaw hraw' => rw [hraw] at hraw'; cases hraw'

end Places

/-! ## Ranges -/

section Ranges

variable {content before text rest : List Char}

theorem byteSize_pos (h : text ≠ []) : 0 < byteSize text := by
  cases text with
  | nil => exact absurd rfl h
  | cons c cs =>
    have hpos := c.utf8Size_pos
    rw [byteSize]
    omega

theorem covers_ofWidth (hne : text ≠ []) (hfeed : '\n' ∉ text) :
    Covers (before ++ text ++ rest)
      (Range.ofWidth (Position.origin.after before) (width text)) before text where
  split := ⟨rest, rfl⟩
  start := by
    rw [List.append_assoc]
    exact offsetAt_after before (text ++ rest)
  stop := by
    have hstop : (Range.ofWidth (Position.origin.after before) (width text)).stop
        = Position.origin.after (before ++ text) := by
      rw [Position.after_append, Position.after_of_notMem hfeed]
      rfl
    rw [hstop]
    exact offsetAt_after (before ++ text) rest
  lt := by
    have hpos := byteSize_pos hne
    rw [byteSize_append]
    omega
  line := rfl
  notMem := hfeed

theorem width_delimiter {c : Char} (h : isDelimiter c = true) : width [c] = 1 := by
  simp only [isDelimiter, isOpener, isCloser, Bool.or_eq_true, decide_eq_true_eq] at h
  rcases h with ((rfl | rfl) | rfl) | ((rfl | rfl) | rfl) <;> decide

theorem width_rawQuote {q : Char} (h : isRawQuote q = true) : width [q] = 1 := by
  have hq : q = Char.ofNat 0x60 := by
    rw [← Char.ofNat_toNat q, of_decide_eq_true h]
  rw [hq]
  decide

theorem notMem_singleton {c : Char} (h : c ≠ '\n') : '\n' ∉ [c] :=
  fun hmem => h (List.mem_singleton.1 hmem).symm

/-- A finding is shown at the start of the text of its lexeme, and is as wide. -/
theorem Reported.shownAt {t : Token} {f : Finding} {cs : List Char} {after : List Lexeme}
    (h : Reported t f) (hread : Reads cs (t.lexeme :: after)) :
    ∃ text rest, t.lexeme.text = text ++ rest ∧ ShownAt f.fault t.lexeme text ∧
      f.width = width text ∧ text ≠ [] ∧ '\n' ∉ text := by
  obtain ⟨start, lexeme⟩ := t
  cases h with
  | @unexpected c expected hl hc =>
    obtain rfl : lexeme = .delimiter c := hl
    have hdelimiter : isDelimiter c = true := by simp [isDelimiter, hc]
    exact ⟨[c], [], rfl, .unexpected hc, (width_delimiter hdelimiter).symm, List.cons_ne_nil _ _,
      notMem_singleton (ne_of_isDelimiter hdelimiter (by decide))⟩
  | @unclosed c hl hc =>
    obtain rfl : lexeme = .delimiter c := hl
    have hdelimiter : isDelimiter c = true := by simp [isDelimiter, hc]
    exact ⟨[c], [], rfl, .unclosed hc, (width_delimiter hdelimiter).symm, List.cons_ne_nil _ _,
      notMem_singleton (ne_of_isDelimiter hdelimiter (by decide))⟩
  | @unterminated q body hl hraw =>
    obtain rfl : lexeme = .unfinished q body := hl
    obtain ⟨hq, hend⟩ := hread.unfinished_inv hraw
    have hfeed : q ≠ '\n' := ne_of_isQuote hq (by decide)
    exact ⟨q :: body, [], (List.append_nil _).symm, .unterminated hq hraw, rfl,
      List.cons_ne_nil _ _, List.not_mem_cons_of_ne_of_not_mem hfeed.symm hend.notMem⟩
  | @unterminatedRaw q body hl hraw =>
    obtain rfl : lexeme = .unfinished q body := hl
    have hfeed : q ≠ '\n' := ne_of_isQuote (isQuote_of_isRawQuote hraw) (by decide)
    exact ⟨[q], body, rfl, .unterminatedRaw hraw, (width_rawQuote hraw).symm,
      List.cons_ne_nil _ _, notMem_singleton hfeed⟩

/-- A string that is cut off takes up the rest of its line. -/
theorem ShownAt.lineFrom {lexeme : Lexeme} {before after : List Lexeme}
    (h : ShownAt .unterminated lexeme text) (hread : Reads content (before ++ lexeme :: after)) :
    LineFrom content (Position.origin.after (textOf before)) text := by
  have hcontent := hread.textOf_eq
  cases h with
  | @unterminated q body hq hraw =>
    obtain ⟨-, hend⟩ := (hread.drop).unfinished_inv hraw
    have hfeed : q ≠ '\n' := ne_of_isQuote hq (by decide)
    have hreturn : q ≠ '\r' := ne_of_isQuote hq (by decide)
    have hline : restOfLine (q :: (body ++ textOf after)) = q :: body := by
      rw [restOfLine_cons hfeed fun h => absurd h hreturn, hend]
    obtain ⟨front, hfront, hwidth⟩ := line_at (textOf before) (q :: (body ++ textOf after))
      (by rw [hline]; exact List.cons_ne_nil _ _)
    rw [hline] at hfront
    rw [textOf_append, textOf_cons] at hcontent
    exact ⟨front, hcontent ▸ hfront, hwidth⟩

end Ranges

/-- The range of every diagnostic covers the text that it is about: the delimiter that it names, a
string from its opening quote to the end of its line, or the opening quote of a raw string. -/
theorem ranges_cover (content : String) :
    ∃ found : List Finding,
      diagnostics (fun _ => false) content = .ok (found.map Finding.toDiagnostic) ∧
      ∀ f ∈ found, ∃ before lexeme after text,
        Reads content.toList (before ++ lexeme :: after) ∧ ShownAt f.fault lexeme text ∧
        Covers content.toList f.toDiagnostic.range (textOf before) text ∧
        (f.fault = .unterminated → LineFrom content.toList f.toDiagnostic.range.start text) := by
  obtain ⟨lexemes, h⟩ := exists_reads content.toList
  refine ⟨check content.toList, diagnostics_eq_ok content, ?_⟩
  intro f hf
  obtain ⟨t, ht, hreported⟩ := h.reported hf
  obtain ⟨before, after, rfl, hstart⟩ := split_of_mem_tokensFrom ht
  obtain ⟨text, rest, htext, hshown, hwidth, hne, hfeed⟩ := hreported.shownAt h.drop
  have hrange : f.toDiagnostic.range
      = Range.ofWidth (Position.origin.after (textOf before)) (width text) := by
    rw [Finding.toDiagnostic, hreported.start_eq, hstart, hwidth]
  have hcontent : content.toList = textOf before ++ text ++ (rest ++ textOf after) := by
    rw [← h.textOf_eq, textOf_append, textOf_cons, htext]
    simp
  refine ⟨before, t.lexeme, after, text, h, hshown, ?_, ?_⟩
  · rw [hrange, hcontent]
    exact covers_ofWidth hne hfeed
  · intro hfault
    rw [hfault] at hshown
    rw [hrange]
    exact hshown.lineFrom h

end PromqlServer.Query
