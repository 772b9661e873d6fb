import PromqlServer.Proofs.Query.Lexemes

/-!
The syntax checker by lexemes. It goes through a text line by line and character by character; what
it finds depends on the lexemes and their places only, one after the other (`Reads.check_eq`).
-/

namespace PromqlServer.Query

open PromqlServer.Text

/-! ## Without cancellation -/

/-- What the client is told of a text. -/
def faults (text : String) : List Diagnostic := (check text.toList).map Finding.toDiagnostic

/-- A scan of lines that nobody cancels. -/
def scanAll : Nat → List (List Char) → Scan → Scan
  | _, [], s => s
  | line, l :: ls, s => scanAll (line + 1) ls (scanLine line l s)

theorem scanLines_eq_ok (line : Nat) (ls : List (List Char)) (s : Scan) :
    scanLines (fun _ => false) line ls s = .ok (scanAll line ls s) := by
  induction ls generalizing line s with
  | nil => rfl
  | cons l ls ih => simpa [scanLines, scanAll] using ih (line + 1) (scanLine line l s)

theorem findings_eq_ok (content : List Char) :
    findings (fun _ => false) content = .ok (scanAll 0 (lines content) Scan.empty).findings := by
  rw [findings, scanLines_eq_ok]
  rfl

theorem check_eq_scanAll (content : List Char) :
    check content = (scanAll 0 (lines content) Scan.empty).findings := by
  rw [check, findings_eq_ok]

/-- An analysis that nobody cancels finds all faults. -/
theorem diagnostics_eq_ok (text : String) :
    diagnostics (fun _ => false) text = .ok (faults text) := by
  rw [diagnostics, faults, check_eq_scanAll, findings_eq_ok]
  rfl

/-! ## Lexemes at their places -/

/-- A lexeme, where it stands. -/
structure Token where
  start : Position
  lexeme : Lexeme
  deriving DecidableEq, Repr

/-- Lexemes one after the other, from a position on. -/
def tokensFrom : Position → List Lexeme → List Token
  | _, [] => []
  | p, l :: ls => ⟨p, l⟩ :: tokensFrom (p.after l.text) ls

/-- What the check notes when it has come to the end of a lexeme. -/
def Token.scan (t : Token) (s : Scan) : Scan :=
  match t.lexeme with
  | .delimiter c => s.outside t.start c
  | .unfinished quote body =>
    if isRawQuote quote then { s with literal := some ⟨quote, t.start⟩ }
    else s.report ⟨t.start, width (quote :: body), .unterminated⟩
  | _ => s

def scanTokens (ts : List Token) (s : Scan) : Scan := ts.foldl (fun s t => t.scan s) s

/-! ## From the middle of a line -/

/-- A new line starts with no escape. -/
def Scan.rested (s : Scan) : Scan := { s with escaped := false }

/-- The scan of a text that starts at `p`, in the middle of a line. -/
def scanRest (p : Position) (cs : List Char) (s : Scan) : Scan :=
  let (column, s) := scanFrom p.line p.character (restOfLine cs) s
  (scanAll (p.line + 1) (lines (linesBelow cs)) (s.endLine column)).rested

/-- Outside of strings, or in a raw one: the end of a line changes nothing. -/
def Scan.Lasts (s : Scan) : Prop := ∀ m ∈ s.literal, isRawQuote m.char = true

section Middle

variable {p p' : Position} {c q : Char} {b cs : List Char} {s : Scan} {m : Mark} {line column : Nat}

theorem Scan.rested_of_escaped (h : s.escaped = false) : s.rested = s := by
  obtain ⟨literal, escaped, delimiters, found⟩ := s
  cases h
  rfl

theorem rested_scanAll (ls : List (List Char)) :
    (scanAll line ls s.rested).rested = (scanAll line ls s).rested := by
  cases ls <;> rfl

theorem Scan.lasts_of_none (h : s.literal = none) : s.Lasts := by
  intro m hm
  rw [h] at hm
  cases hm

theorem Scan.Lasts.endLine (h : s.Lasts) : s.endLine column = s := by
  unfold Scan.endLine
  split
  · rename_i m hm
    rw [if_pos (h m hm)]
  · rfl

theorem scanRest_nil (h : s.Lasts) (hs : s.escaped = false) : scanRest p [] s = s := by
  show (s.endLine p.character).rested = s
  rw [h.endLine, s.rested_of_escaped hs]

theorem scanAll_lines (h : s.Lasts) (hs : s.escaped = false) :
    (scanAll line (lines cs) s).rested = scanRest ⟨line, 0⟩ cs s := by
  cases cs with
  | nil => rw [scanRest_nil h hs]; exact s.rested_of_escaped hs
  | cons c cs =>
    have hline : scanLine line (restOfLine (c :: cs)) s
        = let (column, s) := scanFrom line 0 (restOfLine (c :: cs)) s
          s.endLine column := by
      rw [scanLine, ← Scan.rested, s.rested_of_escaped hs]
    rw [lines_eq (List.cons_ne_nil c cs), scanAll, hline]
    rfl

/-- At the end of a line the scan goes on with the lines below. -/
theorem scanRest_of_restOfLine (hcs : restOfLine cs = []) (h : s.Lasts) :
    scanRest p cs s = (scanAll (p.line + 1) (lines (linesBelow cs)) s).rested := by
  rw [scanRest, hcs]
  show (scanAll _ _ (s.endLine p.character)).rested = _
  rw [h.endLine]

theorem scanRest_inside (hm : s.literal = some m) (hc : c ≠ '\n')
    (hr : c = '\r' → cs.head? ≠ some '\n') :
    scanRest p (c :: cs) s = scanRest (p.next c) cs (s.inside m.char c) := by
  rw [scanRest, restOfLine_cons hc hr, scanFrom, hm, linesBelow, if_neg hc, Position.next_of_ne hc]
  rfl

theorem scanRest_outside (hm : s.literal = none) (hc : c ≠ '\n')
    (hr : c = '\r' → cs.head? ≠ some '\n') (hcomment : c ≠ '#') :
    scanRest p (c :: cs) s = scanRest (p.next c) cs (s.outside p c) := by
  rw [scanRest, restOfLine_cons hc hr, scanFrom, hm, linesBelow, if_neg hc, if_neg hcomment,
    Position.next_of_ne hc]
  rfl

/-- A character that changes nothing is passed over, also one of a line ending. -/
theorem scanRest_idle (h : s.Lasts) (hs : s.escaped = false)
    (hin : ∀ m, s.literal = some m → s.inside m.char c = s)
    (hout : s.literal = none → c ≠ '#' ∧ s.outside p c = s) :
    scanRest p (c :: cs) s = scanRest (p.next c) cs s := by
  by_cases hc : c = '\n'
  · subst hc
    rw [scanRest_of_restOfLine restOfLine_feed h]
    exact scanAll_lines h hs
  by_cases hr : c = '\r' ∧ cs.head? = some '\n'
  · obtain ⟨rfl, hn⟩ := hr
    obtain ⟨rest, rfl⟩ := List.head?_eq_some_iff.1 hn
    rw [scanRest_of_restOfLine restOfLine_return_feed h, scanRest_of_restOfLine restOfLine_feed h]
    rfl
  have hr' : c = '\r' → cs.head? ≠ some '\n' := fun h hn => hr ⟨h, hn⟩
  cases hm : s.literal with
  | none =>
    obtain ⟨hcomment, hsame⟩ := hout hm
    rw [scanRest_outside hm hc hr' hcomment, hsame]
  | some m => rw [scanRest_inside hm hc hr', hin m hm]

/-! ## Lexeme by lexeme -/

theorem Scan.outside_ordinary (hc : isOrdinary c = true) : s.outside p c = s := by
  obtain ⟨-, hquote, hdelimiter⟩ := isOrdinary_iff.1 hc
  simp only [isDelimiter, Bool.or_eq_false_iff] at hdelimiter
  simp [Scan.outside, hquote, hdelimiter]

theorem Scan.outside_quote (hq : isQuote q = true) :
    s.outside p q = { s with literal := some ⟨q, p⟩ } := if_pos hq

theorem scanRest_ordinary (hm : s.literal = none) (hs : s.escaped = false)
    (hc : isOrdinary c = true) : scanRest p (c :: cs) s = scanRest (p.next c) cs s := by
  apply scanRest_idle (Scan.lasts_of_none hm) hs
  · intro m hm'
    rw [hm] at hm'
    cases hm'
  · exact fun _ => ⟨(isOrdinary_iff.1 hc).1, s.outside_ordinary hc⟩

theorem scanRest_delimiter (hm : s.literal = none) (hc : isDelimiter c = true) :
    scanRest p (c :: cs) s = scanRest (p.next c) cs (s.outside p c) := by
  apply scanRest_outside hm
  · exact ne_of_isDelimiter hc (by decide)
  · intro hr
    exact absurd hr (ne_of_isDelimiter hc (by decide))
  · exact ne_of_isDelimiter hc (by decide)

theorem scanRest_comment (hm : s.literal = none) (hend : EndsLine b cs) :
    scanRest p ('#' :: (b ++ cs)) s = scanRest (p.after ('#' :: b)) cs s := by
  have hline : restOfLine ('#' :: (b ++ cs)) = '#' :: b := by
    rw [restOfLine_cons (by decide) (fun h => absurd h (by decide)), hend]
  have hlasts := Scan.lasts_of_none hm
  have hb : '\n' ∉ '#' :: b := List.not_mem_cons_of_ne_of_not_mem (by decide) hend.notMem
  rw [scanRest, hline, scanFrom, hm, scanRest_of_restOfLine hend.rest hlasts,
    Position.after_of_notMem hb, ← List.cons_append, linesBelow_append hb]
  show (scanAll _ _ (s.endLine _)).rested = _
  rw [hlasts.endLine]

/-- What stands inside of a string is passed over. -/
theorem scanFrom_inside (h : Inside q b) (hm : s.literal = some m) (hq : m.char = q)
    (hs : s.escaped = false) :
    scanFrom line column (b ++ cs) s = scanFrom line (column + width b) cs s := by
  induction h generalizing column with
  | nil => rfl
  | @char c b hc hline _ ih =>
    have hsame : s.inside q c = s := by
      cases hraw : isRawQuote q with
      | true => simp [Scan.inside, hs, hc, hraw]
      | false => simp [Scan.inside, hs, hc, (hline hraw).1]
    rw [List.cons_append, scanFrom, hm]
    simp only
    rw [hq, hsame, ih, width, Nat.add_assoc]
  | @escape c b hraw _ _ ih =>
    have hsame : (s.inside q '\\').inside q c = s := by
      have hback : s.inside q '\\' = { s with escaped := true } := by
        simp [Scan.inside, hs, hraw]
      rw [hback]
      obtain ⟨literal, escaped, delimiters, found⟩ := s
      cases hs
      rfl
    have hm' : (s.inside q '\\').literal = some m := by simp [Scan.inside, hs, hraw, hm]
    rw [List.cons_append, List.cons_append, scanFrom, hm]
    simp only
    rw [hq, scanFrom, hm']
    simp only
    rw [hq, hsame, ih, width, width, Nat.add_assoc, Nat.add_assoc]

theorem scanFrom_cutOff (h : CutOff q b) (hraw : isRawQuote q = false) (hm : s.literal = some m)
    (hq : m.char = q) (hs : s.escaped = false) :
    ∃ escaped, scanFrom line column b s = (column + width b, { s with escaped := escaped }) := by
  cases h with
  | inside h =>
    have hscan : scanFrom line column (b ++ []) s = scanFrom line (column + width b) [] s :=
      scanFrom_inside h hm hq hs
    rw [List.append_nil] at hscan
    refine ⟨false, ?_⟩
    rw [hscan, scanFrom, ← Scan.rested, s.rested_of_escaped hs]
  | backslash h =>
    refine ⟨true, ?_⟩
    rw [scanFrom_inside h hm hq hs, scanFrom, hm]
    simp [scanFrom, Scan.inside, hs, hm, hq, hraw, width, Nat.add_assoc]

/-- What stands inside of a raw string is passed over, also over lines. -/
theorem scanRest_raw (hraw : isRawQuote q = true) (hb : Inside q b) (hm : s.literal = some m)
    (hq : m.char = q) (hs : s.escaped = false) :
    scanRest p (b ++ cs) s = scanRest (p.after b) cs s := by
  induction hb generalizing p with
  | nil => rfl
  | @char c b hc _ _ ih =>
    have hlasts : s.Lasts := by
      intro m' hm'
      rw [hm] at hm'
      cases hm'
      rw [hq, hraw]
    rw [List.cons_append, scanRest_idle hlasts hs, ih, Position.after_cons]
    · intro m' hm'
      rw [hm] at hm'
      cases hm'
      simp [Scan.inside, hs, hq, hraw, hc]
    · intro hnone
      rw [hm] at hnone
      cases hnone
  | escape hline => rw [hraw] at hline; cases hline

theorem scanRest_within (hb : Inside q b) (hm : s.literal = some m) (hq : m.char = q)
    (hs : s.escaped = false) (hcs : cs.head? ≠ some '\n') :
    scanRest p (b ++ cs) s = scanRest (p.after b) cs s := by
  cases hraw : isRawQuote q with
  | true => exact scanRest_raw hraw hb hm hq hs
  | false =>
    have hfeed := hb.notMem hraw
    rw [scanRest, restOfLine_append hfeed hcs, linesBelow_append hfeed,
      scanFrom_inside hb hm hq hs, Position.after_of_notMem hfeed]
    rfl

/-- A quote opens a string. -/
theorem scanRest_quote (hq : isQuote q = true) (hm : s.literal = none) :
    scanRest p (q :: cs) s = scanRest (p.next q) cs { s with literal := some ⟨q, p⟩ } := by
  have hreturn : q ≠ '\r' := ne_of_isQuote hq (by decide)
  rw [scanRest_outside hm (ne_of_isQuote hq (by decide)) (fun h => absurd h hreturn)
    (ne_of_isQuote hq (by decide)), Scan.outside_quote hq]

theorem scanRest_literal (hq : isQuote q = true) (hb : Inside q b) (hm : s.literal = none)
    (hs : s.escaped = false) :
    scanRest p (q :: (b ++ q :: cs)) s = scanRest (p.after (q :: (b ++ [q]))) cs s := by
  have hfeed : q ≠ '\n' := ne_of_isQuote hq (by decide)
  have hreturn : q ≠ '\r' := ne_of_isQuote hq (by decide)
  have hback : q ≠ '\\' := ne_of_isQuote hq (by decide)
  have hclosed : Scan.inside { s with literal := some ⟨q, p⟩ } q q = s := by
    obtain ⟨literal, escaped, delimiters, found⟩ := s
    cases hm
    cases hs
    simp [Scan.inside, hback]
  have hhead : (q :: cs).head? ≠ some '\n' := fun h => hfeed (Option.some.inj h)
  rw [scanRest_quote hq hm, scanRest_within hb rfl rfl (by exact hs) hhead,
    scanRest_inside rfl hfeed (fun h => absurd h hreturn), hclosed, Position.after_cons,
    Position.after_append]
  rfl

/-- The end of its line cuts a string off. -/
theorem scanRest_unfinished (hq : isQuote q = true) (hraw : isRawQuote q = false)
    (hb : CutOff q b) (hend : EndsLine b cs) (hm : s.literal = none) (hs : s.escaped = false) :
    scanRest p (q :: (b ++ cs)) s
      = scanRest (p.after (q :: b)) cs (s.report ⟨p, width (q :: b), .unterminated⟩) := by
  have hfeed : q ≠ '\n' := ne_of_isQuote hq (by decide)
  have htext : '\n' ∉ q :: b := List.not_mem_cons_of_ne_of_not_mem hfeed.symm hend.notMem
  obtain ⟨escaped, hscan⟩ : ∃ escaped,
      scanFrom p.line (p.character + units16 q) b { s with literal := some ⟨q, p⟩ }
        = (p.character + units16 q + width b, ⟨some ⟨q, p⟩, escaped, s.delimiters, s.found⟩) :=
    scanFrom_cutOff hb hraw rfl rfl hs
  have hwidth : p.character + units16 q + width b - p.character = width (q :: b) := by
    rw [width]; omega
  have hreported : (Scan.endLine ⟨some ⟨q, p⟩, escaped, s.delimiters, s.found⟩
      (p.character + units16 q + width b)).rested
        = s.report ⟨p, width (q :: b), .unterminated⟩ := by
    obtain ⟨literal, escaped', delimiters, found⟩ := s
    cases hm
    cases hs
    simp [Scan.endLine, hraw, Scan.report, Scan.rested, hwidth]
  calc scanRest p (q :: (b ++ cs)) s
      = scanRest (p.next q) (b ++ cs) { s with literal := some ⟨q, p⟩ } := scanRest_quote hq hm
    _ = (scanAll (p.line + 1) (lines (linesBelow cs))
          (Scan.endLine ⟨some ⟨q, p⟩, escaped, s.delimiters, s.found⟩
            (p.character + units16 q + width b))).rested := by
      rw [scanRest, hend, Position.next_of_ne hfeed, hscan, linesBelow_append hend.notMem]
    _ = (scanAll (p.line + 1) (lines (linesBelow cs))
          (s.report ⟨p, width (q :: b), .unterminated⟩)).rested := by
      rw [← rested_scanAll, hreported]
    _ = scanRest (p.after (q :: b)) cs (s.report ⟨p, width (q :: b), .unterminated⟩) := by
      rw [scanRest_of_restOfLine hend.rest (Scan.lasts_of_none (by exact hm)),
        Position.after_of_notMem htext]

/-- A raw string that is still open at the end of the text. -/
theorem scanRest_unfinishedRaw (hraw : isRawQuote q = true) (hb : Inside q b)
    (hm : s.literal = none) (hs : s.escaped = false) :
    scanRest p (q :: b) s = { s with literal := some ⟨q, p⟩ } := by
  have hlasts : Scan.Lasts { s with literal := some ⟨q, p⟩ } := by
    intro m hm
    cases hm
    exact hraw
  have hrest : scanRest (p.next q) (b ++ []) { s with literal := some ⟨q, p⟩ }
      = scanRest ((p.next q).after b) [] { s with literal := some ⟨q, p⟩ } :=
    scanRest_raw hraw hb rfl rfl hs
  rw [List.append_nil] at hrest
  rw [scanRest_quote (isQuote_of_isRawQuote hraw) hm, hrest, scanRest_nil hlasts hs]

end Middle

/-! ## The whole text -/

theorem lexeme_of_mem_tokensFrom {p : Position} {t : Token} {ls : List Lexeme}
    (h : t ∈ tokensFrom p ls) : t.lexeme ∈ ls := by
  induction ls generalizing p with
  | nil => cases h
  | cons l ls ih =>
    rcases List.mem_cons.1 h with rfl | h
    · exact List.mem_cons_self
    · exact List.mem_cons_of_mem _ (ih h)

section Whole

variable {p : Position} {c : Char} {cs : List Char} {ls : List Lexeme} {s : Scan}

@[simp] theorem scanTokens_nil : scanTokens [] s = s := rfl

@[simp] theorem scanTokens_cons {t : Token} {ts : List Token} :
    scanTokens (t :: ts) s = scanTokens ts (t.scan s) := rfl

/-- Delimiters open and close no string. -/
theorem Scan.outside_delimiter (hc : isDelimiter c = true) :
    (s.outside p c).literal = s.literal ∧ (s.outside p c).escaped = s.escaped := by
  rw [Scan.outside, if_neg (by rw [not_isQuote_of_isDelimiter hc]; decide)]
  split
  · exact ⟨rfl, rfl⟩
  · split
    · unfold Scan.close
      split
      · exact ⟨rfl, rfl⟩
      · split <;> exact ⟨rfl, rfl⟩
    · exact ⟨rfl, rfl⟩

/-- The scan of a text is the scan of its lexemes. -/
theorem Reads.scanRest_eq (h : Reads cs ls) (hm : s.literal = none) (hs : s.escaped = false) :
    scanRest p cs s = scanTokens (tokensFrom p ls) s := by
  -- Between lexemes no string is open and nothing is escaped. A raw string that is left open ends
  -- otherwise, but nothing follows it.
  induction h generalizing p s with
  | nil => rw [scanRest_nil (Scan.lasts_of_none hm) hs]; rfl
  | ordinary hc _ ih =>
    rw [scanRest_ordinary hm hs hc, ih hm hs]
    rfl
  | delimiter hc _ ih =>
    obtain ⟨hliteral, hescaped⟩ := Scan.outside_delimiter (p := p) (s := s) hc
    rw [scanRest_delimiter hm hc, ih (hliteral.trans hm) (hescaped.trans hs)]
    rfl
  | comment hend _ ih =>
    rw [scanRest_comment hm hend, ih hm hs]
    rfl
  | literal hq hbody _ ih =>
    rw [scanRest_literal hq hbody hm hs, ih hm hs]
    rfl
  | @unfinished quote body cs ls hq hraw hbody hend _ ih =>
    have hnone : (s.report ⟨p, width (quote :: body), .unterminated⟩).literal = none := hm
    rw [scanRest_unfinished hq hraw hbody hend hm hs, ih hnone hs, tokensFrom, scanTokens_cons]
    simp [Token.scan, hraw, Lexeme.text]
  | unfinishedRaw hraw hbody =>
    rw [scanRest_unfinishedRaw hraw hbody hm hs, tokensFrom, scanTokens_cons]
    simp [Token.scan, hraw, tokensFrom]

/-- The check finds what the lexemes of the text have it note. -/
theorem Reads.check_eq (h : Reads cs ls) :
    check cs = (scanTokens (tokensFrom Position.origin ls) Scan.empty).findings := by
  have hrested : ∀ s : Scan, s.rested.findings = s.findings := fun _ => rfl
  rw [check_eq_scanAll, ← hrested, scanAll_lines (Scan.lasts_of_none rfl) rfl]
  exact congrArg Scan.findings (h.scanRest_eq rfl rfl)

end Whole

/-! ## One lexeme -/

/-- All that a lexeme can have the check note. -/
inductive Noted (t : Token) (s : Scan) : Scan → Prop
  | silent : t.lexeme.delimiter? = none → t.lexeme.isComplete = true → Noted t s s
  | opened {c : Char} : t.lexeme = .delimiter c → isOpener c = true →
      Noted t s { s with delimiters := ⟨c, t.start⟩ :: s.delimiters }
  | closed {c : Char} {m : Mark} {rest : List Mark} : t.lexeme = .delimiter c →
      isCloser c = true → s.delimiters = m :: rest → closerOf m.char = c →
      Noted t s { s with delimiters := rest }
  | stray {c : Char} : t.lexeme = .delimiter c → isCloser c = true →
      (∀ m ∈ s.delimiters.head?, closerOf m.char ≠ c) →
      Noted t s (s.report
        ⟨t.start, 1, .unexpected c (s.delimiters.head?.map fun m => closerOf m.char)⟩)
  | cutOff {quote : Char} {body : List Char} : t.lexeme = .unfinished quote body →
      isRawQuote quote = false →
      Noted t s (s.report ⟨t.start, width (quote :: body), .unterminated⟩)
  | leftOpen {quote : Char} {body : List Char} : t.lexeme = .unfinished quote body →
      isRawQuote quote = true → Noted t s { s with literal := some ⟨quote, t.start⟩ }

/-- A delimiter of a reading is one. -/
def Lexeme.Proper (l : Lexeme) : Prop := ∀ c, l = .delimiter c → isDelimiter c = true

theorem Reads.proper {cs : List Char} {ls : List Lexeme} (h : Reads cs ls) :
    ∀ l ∈ ls, l.Proper := by
  induction h with
  | nil => exact fun _ hl => absurd hl List.not_mem_nil
  | delimiter hc _ ih =>
    refine List.forall_mem_cons.2 ⟨?_, ih⟩
    rintro c hl
    cases hl
    exact hc
  | ordinary _ _ ih | comment _ _ ih | literal _ _ _ ih | unfinished _ _ _ _ _ ih =>
    refine List.forall_mem_cons.2 ⟨?_, ih⟩
    rintro c hl
    cases hl
  | unfinishedRaw =>
    rw [List.forall_mem_singleton]
    rintro c hl
    cases hl

theorem tokensFrom_proper {p : Position} {ls : List Lexeme} (h : ∀ l ∈ ls, l.Proper) :
    ∀ t ∈ tokensFrom p ls, t.lexeme.Proper := fun _ ht => h _ (lexeme_of_mem_tokensFrom ht)

theorem Token.scan_silent {p : Position} {l : Lexeme} {s : Scan} (hdelimiter : l.delimiter? = none)
    (hcomplete : l.isComplete = true) : Token.scan ⟨p, l⟩ s = s := by
  cases l with
  | ordinary | comment | literal => rfl
  | delimiter => cases hdelimiter
  | unfinished => cases hcomplete

theorem Token.scan_opener {p : Position} {c : Char} {s : Scan} (h : isOpener c = true) :
    Token.scan ⟨p, .delimiter c⟩ s = { s with delimiters := ⟨c, p⟩ :: s.delimiters } := by
  have hquote : isQuote c = false := not_isQuote_of_isDelimiter (by simp [isDelimiter, h])
  simp [Token.scan, Scan.outside, hquote, h]

theorem Token.scan_closer {p : Position} {c : Char} {s : Scan} (h : isCloser c = true) :
    Token.scan ⟨p, .delimiter c⟩ s = s.close p c := by
  have hquote : isQuote c = false := not_isQuote_of_isDelimiter (by simp [isDelimiter, h])
  simp [Token.scan, Scan.outside, hquote, not_isOpener_of_isCloser h, h]

theorem Scan.close_fitting {p : Position} {c : Char} {s : Scan} {m : Mark} {rest : List Mark}
    (hstack : s.delimiters = m :: rest) (hfits : closerOf m.char = c) :
    s.close p c = { s with delimiters := rest } := by
  simp [Scan.close, hstack, hfits]

theorem Token.noted {t : Token} (h : t.lexeme.Proper) (s : Scan) : Noted t s (t.scan s) := by
  obtain ⟨start, lexeme⟩ := t
  cases lexeme with
  | ordinary | comment | literal => exact .silent rfl rfl
  | unfinished quote body =>
    cases hraw : isRawQuote quote with
    | true => simpa [Token.scan, hraw] using Noted.leftOpen (t := ⟨start, _⟩) (s := s) rfl hraw
    | false => simpa [Token.scan, hraw] using Noted.cutOff (t := ⟨start, _⟩) (s := s) rfl hraw
  | delimiter c =>
    have hc := h c rfl
    cases hopener : isOpener c with
    | true =>
      rw [Token.scan_opener hopener]
      exact .opened rfl hopener
    | false =>
      have hcloser : isCloser c = true := by simpa [isDelimiter, hopener] using hc
      have hstray := Noted.stray (t := ⟨start, .delimiter c⟩) (s := s) rfl hcloser
      rw [Token.scan_closer hcloser]
      cases hstack : s.delimiters with
      | nil =>
        simp only [hstack, List.head?_nil, Option.map_none] at hstray
        rw [Scan.close, hstack]
        exact hstray fun _ h => by cases h
      | cons m rest =>
        by_cases hfits : closerOf m.char = c
        · rw [Scan.close_fitting hstack hfits]
          exact .closed rfl hcloser hstack hfits
        · simp only [hstack, List.head?_cons, Option.map_some] at hstray
          rw [Scan.close, hstack]
          simp only [if_neg hfits]
          apply hstray
          intro m' hm'
          cases hm'
          exact hfits

section Keeping

variable {s s' : Scan}

/-- Nothing that the check has found is forgotten. -/
theorem Noted.kept {t : Token} (h : Noted t s s') :
    s.found ⊆ s'.found ∧ (s'.literal = none → s.literal = none) := by
  cases h with
  | silent => exact ⟨List.Subset.refl _, id⟩
  | opened => exact ⟨List.Subset.refl _, id⟩
  | closed => exact ⟨List.Subset.refl _, id⟩
  | stray => exact ⟨List.subset_cons_self _ _, id⟩
  | cutOff => exact ⟨List.subset_cons_self _ _, id⟩
  | leftOpen => exact ⟨List.Subset.refl _, fun h => absurd h (Option.some_ne_none _)⟩

theorem scanTokens_kept {ts : List Token} (h : ∀ t ∈ ts, t.lexeme.Proper) :
    s.found ⊆ (scanTokens ts s).found ∧ ((scanTokens ts s).literal = none → s.literal = none) := by
  induction ts generalizing s with
  | nil => exact ⟨List.Subset.refl _, id⟩
  | cons t ts ih =>
    obtain ⟨ht, hts⟩ := List.forall_mem_cons.1 h
    obtain ⟨hfound, hliteral⟩ := (Token.noted ht s).kept
    obtain ⟨hfound', hliteral'⟩ := ih (s := t.scan s) hts
    exact ⟨List.Subset.trans hfound hfound', fun hnone => hliteral (hliteral' hnone)⟩

end Keeping

end PromqlServer.Query
