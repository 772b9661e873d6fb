import PromqlServer.Proofs.Query.Braces
import PromqlServer.Proofs.Query.Findings

/-!
Open selectors by the two lexers: the syntax checker, which goes line by line and knows all
delimiters, and `open_brace`, which goes through the whole text and knows braces only. Where the
checker has nothing to report but open delimiters, both hold the same braces open at every point of
the text (`open_braces_agree`).
-/

namespace PromqlServer.Query

open PromqlServer.Text

/-! ## Strings -/

section Strings

variable {offset : Nat} {q : Char} {b cs : List Char} {t : BraceScan}

/-- What stands inside of a string is passed over. -/
theorem braceScan_inside (h : Inside q b) (hquote : t.quote = some q)
    (hescaped : t.escaped = false) :
    braceScan offset (b ++ cs) t = braceScan (offset + byteSize b) cs t := by
  induction h generalizing offset with
  | nil => rfl
  | @char c b hc hline _ ih =>
    have hsame : t.step offset c = t := by
      cases hraw : isRawQuote q with
      | true => simp [BraceScan.step, hquote, hescaped, hc, hraw]
      | false => simp [BraceScan.step, hquote, hescaped, hc, (hline hraw).1]
    rw [List.cons_append, braceScan, hsame, ih, byteSize, Nat.add_assoc]
  | @escape c b hraw _ _ ih =>
    have hback : t.step offset '\\' = { t with escaped := true } := by
      simp [BraceScan.step, hquote, hescaped, hraw]
    have hsame : ∀ next, ({ t with escaped := true } : BraceScan).step next c = t := by
      intro next
      obtain ⟨quote, escaped, braces⟩ := t
      cases hquote
      cases hescaped
      rfl
    rw [List.cons_append, List.cons_append, braceScan, hback, braceScan, hsame, ih, byteSize,
      byteSize, Nat.add_assoc, Nat.add_assoc]

theorem braceScan_literal (hq : isQuote q = true) (hb : Inside q b) (hquote : t.quote = none)
    (hescaped : t.escaped = false) :
    braceScan offset (q :: (b ++ [q])) t = t := by
  have hback : q ≠ '\\' := ne_of_isQuote hq (by decide)
  obtain ⟨quote, escaped, braces⟩ := t
  cases hquote
  cases hescaped
  have hopen : BraceScan.step ⟨none, false, braces⟩ offset q = ⟨some q, false, braces⟩ := by
    simp [BraceScan.step, hq]
  rw [braceScan, hopen, braceScan_inside hb rfl rfl]
  simp [braceScan, BraceScan.step, hback]

/-- In a string that is not closed no brace is opened or closed. -/
theorem braceScan_unfinished (hq : isQuote q = true) (hb : CutOff q b) (hquote : t.quote = none)
    (hescaped : t.escaped = false) :
    (braceScan offset (q :: b) t).braces = t.braces := by
  obtain ⟨quote, escaped, braces⟩ := t
  cases hquote
  cases hescaped
  have hopen : BraceScan.step ⟨none, false, braces⟩ offset q = ⟨some q, false, braces⟩ := by
    simp [BraceScan.step, hq]
  rw [braceScan, hopen]
  cases hb with
  | inside hb =>
    rw [← List.append_nil b, braceScan_inside hb rfl rfl]
    rfl
  | backslash hb =>
    rw [braceScan_inside hb rfl rfl]
    simp only [braceScan, BraceScan.step]
    split
    · rfl
    · split
      · rfl
      · split <;> rfl

end Strings

/-! ## Parts of a text -/

section Parts

variable {p : Position} {a b text : List Char} {l : Lexeme} {ls ls' : List Lexeme}

/-- Characters, delimiters and complete strings. -/
def Lexeme.Plain : Lexeme → Prop
  | .ordinary c => isOrdinary c = true
  | .delimiter c => isDelimiter c = true
  | .literal quote body => isQuote quote = true ∧ Inside quote body
  | .comment _ => False
  | .unfinished _ _ => False

theorem Reads.plain (h : Reads text ls) (hcomment : '#' ∉ text)
    (hcomplete : ∀ l ∈ ls, l.isComplete = true) : ∀ l ∈ ls, l.Plain := by
  induction h with
  | nil => exact fun _ hl => absurd hl List.not_mem_nil
  | ordinary hc _ ih | delimiter hc _ ih =>
    refine List.forall_mem_cons.2 ⟨hc, ih ?_ (List.forall_mem_cons.1 hcomplete).2⟩
    exact fun hmem => hcomment (List.mem_cons_of_mem _ hmem)
  | comment => exact absurd List.mem_cons_self hcomment
  | literal hq hbody _ ih =>
    refine List.forall_mem_cons.2 ⟨⟨hq, hbody⟩, ih ?_ (List.forall_mem_cons.1 hcomplete).2⟩
    exact fun hmem => hcomment (by simp [hmem])
  | unfinished | unfinishedRaw => cases hcomplete _ List.mem_cons_self

theorem tokensFrom_append :
    tokensFrom p (ls ++ ls') = tokensFrom p ls ++ tokensFrom (p.after (textOf ls)) ls' := by
  induction ls generalizing p with
  | nil => rfl
  | cons l ls ih =>
    rw [List.cons_append, tokensFrom, ih, tokensFrom, textOf_cons, Position.after_append,
      List.cons_append]

theorem scanTokens_append {ts ts' : List Token} {s : Scan} :
    scanTokens (ts ++ ts') s = scanTokens ts' (scanTokens ts s) := List.foldl_append

/-- A part of a string is cut off at its end. -/
theorem Inside.cutOff {q : Char} (h : Inside q (a ++ b)) (hq : isQuote q = true) : CutOff q a := by
  cases hraw : isRawQuote q with
  | true =>
    refine .inside (inside_raw hraw fun hmem => ?_)
    exact h.not_mem_raw hraw (List.mem_append_left _ hmem)
  | false =>
    have hfeed : '\n' ∉ a := fun hmem => h.notMem hraw (List.mem_append_left _ hmem)
    rcases closed_or_cutOff hraw a hfeed with ⟨body, rest, rfl, hbody⟩ | hcut
    · rw [List.append_assoc, List.cons_append] at h
      exact absurd h (hbody.not_append_quote hq)
    · exact hcut

theorem reads_unfinished {q : Char} (hq : isQuote q = true) (h : Inside q (a ++ b)) :
    Reads (q :: a) [.unfinished q a] := by
  cases hraw : isRawQuote q with
  | true =>
    refine .unfinishedRaw hraw (inside_raw hraw fun hmem => ?_)
    exact h.not_mem_raw hraw (List.mem_append_left _ hmem)
  | false =>
    have hfeed : '\n' ∉ a := fun hmem => h.notMem hraw (List.mem_append_left _ hmem)
    have hend : EndsLine a [] := by
      rw [EndsLine, restOfLine_append hfeed (by simp), restOfLine_nil, List.append_nil]
    have hread := Reads.unfinished hq hraw (h.cutOff hq) hend .nil
    rwa [List.append_nil] at hread

/-- The first part of a text reads as the first lexemes, the last of which may be a string that is
cut off. -/
theorem Reads.take (h : Reads text ls) (hls : ∀ l ∈ ls, l.Plain)
    (htext : text = a ++ b) :
    ∃ front rest cut, ls = front ++ rest ∧ Reads a (front ++ cut) ∧
      (cut = [] ∨ ∃ q body, isQuote q = true ∧ CutOff q body ∧ cut = [.unfinished q body]) := by
  induction h generalizing a with
  | nil =>
    obtain ⟨rfl, -⟩ := List.append_eq_nil_iff.1 htext.symm
    exact ⟨[], [], [], rfl, .nil, Or.inl rfl⟩
  | @ordinary c cs ls hc h ih =>
    cases a with
    | nil => exact ⟨[], _, [], rfl, .nil, Or.inl rfl⟩
    | cons d a =>
      obtain ⟨rfl, hcs⟩ := List.cons.inj htext
      obtain ⟨front, rest, cut, rfl, hread, hcut⟩ := ih (List.forall_mem_cons.1 hls).2 hcs
      exact ⟨.ordinary c :: front, rest, cut, rfl, .ordinary hc hread, hcut⟩
  | @delimiter c cs ls hc h ih =>
    cases a with
    | nil => exact ⟨[], _, [], rfl, .nil, Or.inl rfl⟩
    | cons d a =>
      obtain ⟨rfl, hcs⟩ := List.cons.inj htext
      obtain ⟨front, rest, cut, rfl, hread, hcut⟩ := ih (List.forall_mem_cons.1 hls).2 hcs
      exact ⟨.delimiter c :: front, rest, cut, rfl, .delimiter hc hread, hcut⟩
  | comment => cases hls _ List.mem_cons_self
  | @literal q body cs ls hq hbody h ih =>
    cases a with
    | nil => exact ⟨[], _, [], rfl, .nil, Or.inl rfl⟩
    | cons d a =>
      obtain ⟨rfl, hrest⟩ := List.cons.inj htext
      have hcutHere : ∀ body', body = a ++ body' → ∃ front rest cut,
          .literal q body :: ls = front ++ rest ∧ Reads (q :: a) (front ++ cut) ∧
          (cut = [] ∨ ∃ q body, isQuote q = true ∧ CutOff q body ∧ cut = [.unfinished q body]) := by
        rintro body' rfl
        exact ⟨[], _, [.unfinished q a], rfl, reads_unfinished hq hbody,
          Or.inr ⟨q, a, hq, hbody.cutOff hq, rfl⟩⟩
      rcases List.append_eq_append_iff.1 hrest with ⟨more, rfl, hmore⟩ | ⟨body', hbody', -⟩
      · cases more with
        | nil => exact hcutHere [] (by simp)
        | cons d more =>
          obtain ⟨rfl, hcs⟩ := List.cons.inj hmore
          obtain ⟨front, rest, cut, rfl, hread, hcut⟩ := ih (List.forall_mem_cons.1 hls).2 hcs
          refine ⟨.literal q body :: front, rest, cut, rfl, ?_, hcut⟩
          exact .literal hq hbody hread
      · exact hcutHere body' hbody'
  | unfinished | unfinishedRaw => cases hls _ List.mem_cons_self

end Parts

/-! ## Both lexers side by side -/

/-- The braces that the check holds open, the innermost first. -/
def Scan.braces (s : Scan) : List Mark := s.delimiters.filter fun m => m.char = '{'

/-- Outside of strings the check and the search hold the same braces open. -/
structure Agrees (content : List Char) (s : Scan) (t : BraceScan) : Prop where
  quote : t.quote = none
  escaped : t.escaped = false
  openers : ∀ m ∈ s.delimiters, isOpener m.char = true
  braces : t.braces.map some = s.braces.map fun m => offsetAt content m.start

section Steps

variable {content front rest : List Char} {c : Char} {l : Lexeme} {ls : List Lexeme} {s : Scan}
  {t : BraceScan}

theorem agrees_empty (content : List Char) : Agrees content Scan.empty BraceScan.empty :=
  ⟨rfl, rfl, fun _ h => absurd h List.not_mem_nil, rfl⟩

/-- Only braces matter to the search outside of strings. -/
theorem BraceScan.step_idle {offset : Nat} (hquote : t.quote = none) (hc : isQuote c = false)
    (hopen : c ≠ '{') (hshut : c ≠ '}') : t.step offset c = t := by
  simp [BraceScan.step, hquote, hc, hopen, hshut]

theorem Agrees.opened (h : Agrees content s t) (hcontent : content = front ++ c :: rest)
    (hc : isOpener c = true) :
    Agrees content { s with delimiters := ⟨c, Position.origin.after front⟩ :: s.delimiters }
      (t.step (byteSize front) c) := by
  have hopeners : ∀ m ∈ (⟨c, Position.origin.after front⟩ : Mark) :: s.delimiters,
      isOpener m.char = true := List.forall_mem_cons.2 ⟨hc, h.openers⟩
  by_cases hbrace : c = '{'
  · subst hbrace
    rw [BraceScan.step_open h.quote]
    refine ⟨h.quote, h.escaped, hopeners, ?_⟩
    have hoffset : offsetAt content (Position.origin.after front) = some (byteSize front) := by
      rw [hcontent]
      exact offsetAt_after front _
    simp [Scan.braces, hoffset, h.braces]
  · have hshut : c ≠ '}' := by
      rintro rfl
      cases hc
    have hquote : isQuote c = false := not_isQuote_of_isDelimiter (by simp [isDelimiter, hc])
    rw [BraceScan.step_idle h.quote hquote hbrace hshut]
    refine ⟨h.quote, h.escaped, hopeners, ?_⟩
    simp [Scan.braces, hbrace, h.braces]

/-- A brace closes a brace, and the other closers close no brace. -/
theorem Agrees.closed {offset : Nat} {m : Mark} {below : List Mark} (h : Agrees content s t)
    (hc : isCloser c = true) (hstack : s.delimiters = m :: below) (hfits : closerOf m.char = c) :
    Agrees content { s with delimiters := below } (t.step offset c) := by
  have hopeners := h.openers
  have hbraces := h.braces
  rw [Scan.braces, hstack] at hbraces
  rw [hstack] at hopeners
  obtain ⟨hm, hbelow⟩ := List.forall_mem_cons.1 hopeners
  by_cases hbrace : m.char = '{'
  · obtain rfl : c = '}' := by rw [← hfits, hbrace]; rfl
    have hstep : t.step offset '}' = { t with braces := t.braces.tail } := by
      simp [BraceScan.step, h.quote, isQuote]
    rw [hstep]
    refine ⟨h.quote, h.escaped, hbelow, ?_⟩
    rw [List.map_tail, hbraces]
    simp [Scan.braces, hbrace]
  · have hshut : c ≠ '}' := by
      simp only [isOpener, Bool.or_eq_true, decide_eq_true_eq, hbrace, or_false] at hm
      rw [← hfits]
      rcases hm with hm | hm <;> simp [closerOf, hm]
    have hquote : isQuote c = false := not_isQuote_of_isDelimiter (by simp [isDelimiter, hc])
    have hopen : c ≠ '{' := by
      rintro rfl
      cases hc
    rw [BraceScan.step_idle h.quote hquote hopen hshut]
    refine ⟨h.quote, h.escaped, hbelow, ?_⟩
    rw [hbraces]
    simp [Scan.braces, hbrace]

theorem Agrees.step (h : Agrees content s t) (hcontent : content = front ++ (l.text ++ rest))
    (hl : l.Plain) (hfound : (Token.scan ⟨Position.origin.after front, l⟩ s).found = []) :
    Agrees content (Token.scan ⟨Position.origin.after front, l⟩ s)
      (braceScan (byteSize front) l.text t) := by
  cases l with
  | ordinary c =>
    obtain ⟨-, hquote, hdelimiter⟩ := isOrdinary_iff.1 hl
    have hidle : t.step (byteSize front) c = t := by
      apply BraceScan.step_idle h.quote hquote
      · rintro rfl
        cases hdelimiter
      · rintro rfl
        cases hdelimiter
    show Agrees content s (t.step (byteSize front) c)
    rw [hidle]
    exact h
  | delimiter c =>
    show Agrees content _ (t.step (byteSize front) c)
    have hdelimiter : isDelimiter c = true := hl
    cases hopener : isOpener c with
    | true =>
      rw [Token.scan_opener hopener]
      exact h.opened hcontent hopener
    | false =>
      have hcloser : isCloser c = true := by simpa [isDelimiter, hopener] using hdelimiter
      rw [Token.scan_closer hcloser] at hfound ⊢
      cases hstack : s.delimiters with
      | nil => simp [Scan.close, hstack, Scan.report] at hfound
      | cons m below =>
        by_cases hfits : closerOf m.char = c
        · rw [Scan.close_fitting hstack hfits]
          exact h.closed hcloser hstack hfits
        · simp [Scan.close, hstack, hfits, Scan.report] at hfound
  | literal q body =>
    show Agrees content s (braceScan (byteSize front) (q :: (body ++ [q])) t)
    rw [braceScan_literal hl.1 hl.2 h.quote h.escaped]
    exact h
  | comment => cases hl
  | unfinished => cases hl

/-- As long as nothing is reported, both go through the text side by side. -/
theorem Agrees.run (h : Agrees content s t) (hcontent : content = front ++ (textOf ls ++ rest))
    (hls : ∀ l ∈ ls, l.Plain)
    (hfound : (scanTokens (tokensFrom (Position.origin.after front) ls) s).found = []) :
    Agrees content (scanTokens (tokensFrom (Position.origin.after front) ls) s)
      (braceScan (byteSize front) (textOf ls) t) := by
  induction ls generalizing front s t with
  | nil => exact h
  | cons l ls ih =>
    obtain ⟨hl, hbehind⟩ := List.forall_mem_cons.1 hls
    have hproper : ∀ l ∈ ls, l.Proper := by
      rintro _ hmem c rfl
      exact hbehind _ hmem
    rw [tokensFrom, scanTokens_cons] at hfound ⊢
    rw [textOf_cons, List.append_assoc] at hcontent
    rw [textOf_cons, braceScan_append]
    have hkept := (scanTokens_kept (s := Token.scan ⟨Position.origin.after front, l⟩ s)
      (tokensFrom_proper (p := (Position.origin.after front).after l.text) hproper)).1
    rw [hfound] at hkept
    have hstep := h.step hcontent hl (List.subset_nil.1 hkept)
    rw [← Position.after_append] at hfound ⊢
    rw [← byteSize_append]
    exact ih hstep (by rw [hcontent, List.append_assoc]) hbehind hfound

end Steps

/-! ## The whole text -/

/-- The delimiters that the check holds open at the end of a text. -/
def openDelimiters (text : List Char) : List Mark :=
  (scanAll 0 (lines text) Scan.empty).delimiters

section Whole

variable {a b content : List Char} {ls : List Lexeme}

theorem Reads.openDelimiters_eq (h : Reads a ls) :
    openDelimiters a = (scanTokens (tokensOf ls) Scan.empty).delimiters := by
  have hrested : ∀ s : Scan, s.rested.delimiters = s.delimiters := fun _ => rfl
  rw [openDelimiters, ← hrested, scanAll_lines (Scan.lasts_of_none rfl) rfl]
  exact congrArg Scan.delimiters (h.scanRest_eq rfl rfl)

theorem isComplete_of_scan {p : Position} {s : Scan} (hls : ∀ l ∈ ls, l.Proper)
    (hfound : (scanTokens (tokensFrom p ls) s).found = [])
    (hliteral : (scanTokens (tokensFrom p ls) s).literal = none) :
    ∀ l ∈ ls, l.isComplete = true := by
  induction ls generalizing p s with
  | nil => exact fun _ h => absurd h List.not_mem_nil
  | cons l ls ih =>
    obtain ⟨-, hbehind⟩ := List.forall_mem_cons.1 hls
    rw [tokensFrom, scanTokens_cons] at hfound hliteral
    refine List.forall_mem_cons.2 ⟨?_, ih hbehind hfound hliteral⟩
    obtain ⟨hkept, hkept'⟩ := scanTokens_kept (s := Token.scan ⟨p, l⟩ s)
      (tokensFrom_proper (p := p.after l.text) hbehind)
    cases l with
    | ordinary | delimiter | comment | literal => rfl
    | unfinished q body =>
      rw [hfound] at hkept
      have hnone := List.subset_nil.1 hkept
      have hclosed := hkept' hliteral
      cases hraw : isRawQuote q with
      | true => simp [Token.scan, hraw] at hclosed
      | false => simp [Token.scan, hraw, Scan.report] at hnone

/-- If only open delimiters are reported, then nothing was found on the way. -/
theorem Reads.found_nothing (h : Reads content ls)
    (hunclosed : ∀ f ∈ check content, ∃ c, f.fault = .unclosed c) :
    (scanTokens (tokensOf ls) Scan.empty).found = [] ∧
      (scanTokens (tokensOf ls) Scan.empty).literal = none := by
  obtain ⟨_, hordered⟩ := Ordered.run (p := Position.origin) ordered_empty h.proper
  rw [h.check_eq] at hunclosed
  constructor
  · rw [List.eq_nil_iff_forall_not_mem]
    intro f hf
    obtain ⟨c, hc⟩ := hunclosed f (Scan.mem_findings.2 (Or.inl hf))
    have hphase := hordered.phase f hf
    rw [hc] at hphase
    cases hphase
  · rw [Option.eq_none_iff_forall_ne_some]
    intro m hm
    obtain ⟨c, hc⟩ := hunclosed _ (Scan.mem_findings.2 (Or.inr (Or.inl ⟨m, hm, rfl⟩)))
    cases hc

/-- A string that is cut off changes nothing about open braces. -/
theorem Agrees.cutOff {front cut : List Lexeme} {p : Position} {s : Scan} {offset : Nat}
    {t : BraceScan}
    (h : Agrees content (scanTokens (tokensFrom p front) s) (braceScan offset (textOf front) t))
    (hcut : cut = [] ∨ ∃ q body, isQuote q = true ∧ CutOff q body ∧ cut = [.unfinished q body]) :
    (braceScan offset (textOf (front ++ cut)) t).braces.map some
      = (scanTokens (tokensFrom p (front ++ cut)) s).braces.map fun m =>
          offsetAt content m.start := by
  rcases hcut with rfl | ⟨q, body, hq, hbody, rfl⟩
  · rw [List.append_nil]
    exact h.braces
  · have htext : textOf (front ++ [.unfinished q body]) = textOf front ++ q :: body := by
      simp [Lexeme.text]
    have hsame : ∀ (start : Position) (s : Scan),
        (Token.scan ⟨start, .unfinished q body⟩ s).braces = s.braces := by
      intro start s
      cases hraw : isRawQuote q <;> simp [Token.scan, hraw, Scan.braces, Scan.report]
    rw [htext, braceScan_append, braceScan_unfinished hq hbody h.quote h.escaped,
      tokensFrom_append, scanTokens_append, tokensFrom, tokensFrom, scanTokens_cons,
      scanTokens_nil, hsame]
    exact h.braces

/-- At every point of the text both hold the same braces open. -/
theorem braces_agree (hcomment : '#' ∉ content)
    (hunclosed : ∀ f ∈ check content, ∃ c, f.fault = .unclosed c) (hcut : content = a ++ b) :
    (searched a).braces.map some
      = ((openDelimiters a).filter fun m => m.char = '{').map
          fun m => offsetAt content m.start := by
  obtain ⟨ls, h⟩ := exists_reads content
  obtain ⟨hfound, hliteral⟩ := h.found_nothing hunclosed
  have hplain := h.plain hcomment (isComplete_of_scan h.proper hfound hliteral)
  have hproper := h.proper
  obtain ⟨front, rest, cut, rfl, hread, hends⟩ := h.take hplain hcut
  have hfront : (scanTokens (tokensOf front) Scan.empty).found = [] := by
    have hrest : ∀ l ∈ rest, l.Proper := fun l hl => hproper l (List.mem_append_right _ hl)
    have hkept := (scanTokens_kept (s := scanTokens (tokensOf front) Scan.empty)
      (tokensFrom_proper (p := Position.origin.after (textOf front)) hrest)).1
    rw [tokensOf, tokensFrom_append, scanTokens_append] at hfound
    exact List.subset_nil.1 (hfound ▸ hkept)
  have hagrees : Agrees content (scanTokens (tokensOf front) Scan.empty)
      (searched (textOf front)) := by
    have hwhole : content = [] ++ (textOf front ++ textOf rest) := by
      rw [← h.textOf_eq, textOf_append]
      rfl
    have hfrontPlain : ∀ l ∈ front, l.Plain := fun l hl => hplain l (List.mem_append_left _ hl)
    exact (agrees_empty content).run hwhole hfrontPlain hfront
  rw [hread.openDelimiters_eq, ← hread.textOf_eq]
  exact hagrees.cutOff hends

end Whole

/-! ## Reports of open braces -/

section Reports

variable {content : String} {s : Scan} {f : Fault} {c : Char}

theorem Fault.message_unclosed (c : Char) :
    (Fault.unclosed c).message = "unclosed '" ++ c.toString ++ "'" := rfl

/-- An open delimiter is told from all other faults by its message. -/
theorem Fault.message_eq_unclosed : f.message = (Fault.unclosed c).message ↔ f = .unclosed c := by
  constructor
  · intro h
    -- The third character tells it from the others.
    cases f with
    | unclosed d =>
      rw [Fault.message_unclosed, Fault.message_unclosed, String.append_left_inj,
        String.append_right_inj] at h
      exact congrArg Fault.unclosed (by simpa [Char.toString] using congrArg String.toList h)
    | unexpected d expected =>
      rw [Fault.message_unclosed] at h
      cases expected with
      | none =>
        change "unexpected '" ++ d.toString ++ "'" = _ at h
        simpa using congrArg String.toList h
      | some e =>
        change "unexpected '" ++ d.toString ++ "', expected '" ++ e.toString ++ "'" = _ at h
        simpa using congrArg String.toList h
    | unterminated =>
      change "unterminated string literal" = "unclosed '" ++ c.toString ++ "'" at h
      simpa using congrArg String.toList h
    | unterminatedRaw =>
      change "unterminated raw string literal" = "unclosed '" ++ c.toString ++ "'" at h
      simpa using congrArg String.toList h
  · rintro rfl
    rfl

/-- The reports of open braces. -/
def unclosedBraces (ds : List Diagnostic) : List Diagnostic :=
  ds.filter fun d => d.message = (Fault.unclosed '{').message

/-- Open braces are reported from the outside to the inside. -/
theorem Scan.unclosedBraces_eq (hfound : s.found = []) (hliteral : s.literal = none) :
    (unclosedBraces (s.findings.map Finding.toDiagnostic)).map (fun d => d.range.start)
      = (s.braces.map Mark.start).reverse := by
  have hbrace : ((fun d : Diagnostic => decide (d.message = (Fault.unclosed '{').message)) ∘
      Finding.toDiagnostic ∘ fun m : Mark => ⟨m.start, 1, .unclosed m.char⟩)
        = fun m => decide (m.char = '{') := by
    funext m
    simp [Finding.toDiagnostic, Fault.message_eq_unclosed]
  rw [unclosedBraces, Scan.findings, hfound, hliteral]
  simp only [Option.toList_none, List.map_nil, List.reverse_nil, List.nil_append, List.map_map,
    List.filter_map, hbrace, Scan.braces, List.filter_reverse, List.map_reverse]
  rfl

/-- If only open delimiters are reported of a text without comments, the selector around the cursor
starts at the last brace that is reported, and at every point of the text the search holds the
braces open that the check does. -/
theorem open_braces_agree {ds : List Diagnostic}
    (hds : diagnostics (fun _ => false) content = .ok ds) (hcomment : '#' ∉ content.toList)
    (hunclosed : ∀ d ∈ ds, ∃ c, d.message = (Fault.unclosed c).message) :
    (openBrace content.toList).map some
        = (unclosedBraces ds).getLast?.map (fun d => offsetAt content.toList d.range.start) ∧
      ∀ a b, content.toList = a ++ b →
        (searched a).braces.map some
          = ((openDelimiters a).filter fun m => m.char = '{').map
              fun m => offsetAt content.toList m.start := by
  rw [diagnostics_eq_ok] at hds
  cases hds
  have hfaults : ∀ f ∈ check content.toList, ∃ c, f.fault = .unclosed c := by
    intro f hf
    obtain ⟨c, hc⟩ := hunclosed _ (List.mem_map_of_mem hf)
    exact ⟨c, Fault.message_eq_unclosed.1 hc⟩
  refine ⟨?_, fun a b => braces_agree hcomment hfaults⟩
  obtain ⟨ls, h⟩ := exists_reads content.toList
  obtain ⟨hfound, hliteral⟩ := h.found_nothing hfaults
  have hbraces := braces_agree hcomment hfaults (List.append_nil content.toList).symm
  have hreports := Scan.unclosedBraces_eq hfound hliteral
  rw [h.openDelimiters_eq] at hbraces
  calc (openBrace content.toList).map some
      = ((searched content.toList).braces.map some).head? := by rw [openBrace_eq, List.head?_map]
    _ = ((scanTokens (tokensOf ls) Scan.empty).braces.map Mark.start).head?.map
          (offsetAt content.toList) := by
      rw [hbraces, ← List.head?_map, List.map_map]
      rfl
    _ = ((unclosedBraces (faults content)).map fun d => d.range.start).getLast?.map
          (offsetAt content.toList) := by
      rw [faults, h.check_eq, ← tokensOf, hreports, List.getLast?_reverse]
    _ = (unclosedBraces (faults content)).getLast?.map
          (fun d => offsetAt content.toList d.range.start) := by
      rw [List.getLast?_map, Option.map_map]
      rfl

/-- Neither the brace in a string behind an escaped quote nor the one in a raw string on the next
line counts. -/
theorem open_braces_agree_strings :
    (openBrace "sum(a\x7bb=\"\\\"\x7d\", c=`\n\x7b`".toList).map some
      = some (offsetAt "sum(a\x7bb=\"\\\"\x7d\", c=`\n\x7b`".toList ⟨0, 5⟩) := by
  have hds : diagnostics (fun _ => false) "sum(a\x7bb=\"\\\"\x7d\", c=`\n\x7b`" = .ok
      [⟨Range.ofWidth ⟨0, 3⟩ 1, some .error, some "promql", (Fault.unclosed '(').message⟩,
        ⟨Range.ofWidth ⟨0, 5⟩ 1, some .error, some "promql", (Fault.unclosed '{').message⟩] := rfl
  refine (open_braces_agree hds (by decide) ?_).1
  intro d hd
  simp only [List.mem_cons, List.not_mem_nil, or_false] at hd
  rcases hd with rfl | rfl
  · exact ⟨'(', rfl⟩
  · exact ⟨'{', rfl⟩

end Reports

end PromqlServer.Query
