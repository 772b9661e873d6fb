import PromqlServer.Proofs.Text.Positions
import PromqlServer.Query.Lexical

/-!
The lexical grammar that the syntax checker goes by. `Reads` says how a text is divided into
ordinary characters, delimiters, comments and strings, the last of which may be left without their
closing quote. Every text has exactly one reading.
-/

namespace PromqlServer.Query

open PromqlServer.Text

/-! ## The grammar -/

def isDelimiter (c : Char) : Bool := isOpener c || isCloser c

/-- A character that stands for itself: no delimiter, no quote and no start of a comment. -/
def isOrdinary (c : Char) : Bool := c != '#' && !isQuote c && !isDelimiter c

inductive Lexeme where
  | ordinary (c : Char)
  | delimiter (c : Char)
  | comment (body : List Char)
  | literal (quote : Char) (body : List Char)
  /-- A string that the end of its line cuts off or, if it is raw, the end of the text. -/
  | unfinished (quote : Char) (body : List Char)
  deriving DecidableEq, Repr

def Lexeme.text : Lexeme → List Char
  | .ordinary c => [c]
  | .delimiter c => [c]
  | .comment body => '#' :: body
  | .literal quote body => quote :: (body ++ [quote])
  | .unfinished quote body => quote :: body

/-- Neither the end of a line nor the end of the text cuts the lexeme off. -/
def Lexeme.isComplete : Lexeme → Bool
  | .unfinished _ _ => false
  | _ => true

def Lexeme.delimiter? : Lexeme → Option Char
  | .delimiter c => some c
  | _ => none

/-- What can stand between the quotes of a string. A raw string has no escapes and may go over
lines. -/
inductive Inside (quote : Char) : List Char → Prop
  | nil : Inside quote []
  | char {c : Char} {cs : List Char} : c ≠ quote →
      (isRawQuote quote = false → c ≠ '\\' ∧ c ≠ '\n') → Inside quote cs → Inside quote (c :: cs)
  | escape {c : Char} {cs : List Char} : isRawQuote quote = false → c ≠ '\n' →
      Inside quote cs → Inside quote ('\\' :: c :: cs)

/-- The rest of a line in which a string is not closed; its last character may be a backslash with
nothing to escape. -/
inductive CutOff (quote : Char) : List Char → Prop
  | inside {body : List Char} : Inside quote body → CutOff quote body
  | backslash {body : List Char} : Inside quote body → CutOff quote (body ++ ['\\'])

/-- The lexemes of a text. -/
inductive Reads : List Char → List Lexeme → Prop
  | nil : Reads [] []
  | ordinary {c : Char} {cs : List Char} {ls : List Lexeme} : isOrdinary c = true →
      Reads cs ls → Reads (c :: cs) (.ordinary c :: ls)
  | delimiter {c : Char} {cs : List Char} {ls : List Lexeme} : isDelimiter c = true →
      Reads cs ls → Reads (c :: cs) (.delimiter c :: ls)
  | comment {body cs : List Char} {ls : List Lexeme} : EndsLine body cs →
      Reads cs ls → Reads ('#' :: (body ++ cs)) (.comment body :: ls)
  | literal {quote : Char} {body cs : List Char} {ls : List Lexeme} : isQuote quote = true →
      Inside quote body → Reads cs ls →
      Reads (quote :: (body ++ quote :: cs)) (.literal quote body :: ls)
  | unfinished {quote : Char} {body cs : List Char} {ls : List Lexeme} : isQuote quote = true →
      isRawQuote quote = false → CutOff quote body → EndsLine body cs → Reads cs ls →
      Reads (quote :: (body ++ cs)) (.unfinished quote body :: ls)
  | unfinishedRaw {quote : Char} {body : List Char} : isRawQuote quote = true →
      Inside quote body → Reads (quote :: body) [.unfinished quote body]

/-- The text that lexemes make up. -/
def textOf (ls : List Lexeme) : List Char := ls.flatMap Lexeme.text

section Texts

variable {l : Lexeme} {ls ls' : List Lexeme} {cs : List Char}

@[simp] theorem textOf_nil : textOf [] = [] := rfl

@[simp] theorem textOf_cons : textOf (l :: ls) = l.text ++ textOf ls := List.flatMap_cons

@[simp] theorem textOf_append : textOf (ls ++ ls') = textOf ls ++ textOf ls' :=
  List.flatMap_append

theorem Lexeme.text_ne_nil (l : Lexeme) : l.text ≠ [] := by
  cases l <;> exact List.cons_ne_nil _ _

theorem Lexeme.eq_delimiter {c : Char} (h : l.delimiter? = some c) : l = .delimiter c := by
  cases l with
  | delimiter => exact congrArg Lexeme.delimiter (Option.some.inj h)
  | ordinary | comment | literal | unfinished => cases h

/-- A reading leaves nothing of the text out. -/
theorem Reads.textOf_eq (h : Reads cs ls) : textOf ls = cs := by
  induction h with
  | nil => rfl
  | ordinary _ _ ih | delimiter _ _ ih | comment _ _ ih | literal _ _ _ ih
  | unfinished _ _ _ _ _ ih => simp [Lexeme.text, ih]
  | unfinishedRaw => simp [Lexeme.text]

end Texts

/-! ## Kinds of characters -/

section Kinds

variable {c q : Char}

theorem isQuote_of_isRawQuote (h : isRawQuote c = true) : isQuote c = true := by
  simp only [isRawQuote, decide_eq_true_eq] at h
  simp [isQuote, h]

theorem not_isQuote_of_isDelimiter (h : isDelimiter c = true) : isQuote c = false := by
  simp only [isDelimiter, isOpener, isCloser, Bool.or_eq_true, decide_eq_true_eq] at h
  rcases h with ((rfl | rfl) | rfl) | ((rfl | rfl) | rfl) <;> decide

theorem not_isCloser_of_isOpener (h : isOpener c = true) : isCloser c = false := by
  simp only [isOpener, Bool.or_eq_true, decide_eq_true_eq] at h
  rcases h with (rfl | rfl) | rfl <;> decide

theorem not_isOpener_of_isCloser (h : isCloser c = true) : isOpener c = false := by
  cases hopener : isOpener c with
  | false => rfl
  | true => rw [not_isCloser_of_isOpener hopener] at h; cases h

theorem isCloser_closerOf (c : Char) : isCloser (closerOf c) = true := by
  unfold closerOf
  split
  · decide
  · split <;> decide

theorem ne_of_isQuote (h : isQuote q = true) (hc : isQuote c = false) : q ≠ c := by
  rintro rfl
  rw [h] at hc
  cases hc

theorem ne_of_isDelimiter (h : isDelimiter q = true) (hc : isDelimiter c = false) : q ≠ c := by
  rintro rfl
  rw [h] at hc
  cases hc

/-- Every character is of one kind. -/
theorem char_cases (c : Char) :
    isOrdinary c = true ∨ isDelimiter c = true ∨ c = '#' ∨ isQuote c = true := by
  by_cases hdelimiter : isDelimiter c = true
  · exact Or.inr (Or.inl hdelimiter)
  by_cases hcomment : c = '#'
  · exact Or.inr (Or.inr (Or.inl hcomment))
  by_cases hquote : isQuote c = true
  · exact Or.inr (Or.inr (Or.inr hquote))
  · left
    simp [isOrdinary, hdelimiter, hcomment, hquote]

theorem isOrdinary_iff :
    isOrdinary c = true ↔ c ≠ '#' ∧ isQuote c = false ∧ isDelimiter c = false := by
  simp [isOrdinary, and_assoc]

end Kinds

/-! ## The first lexeme -/

section Inversion

variable {c q : Char} {cs : List Char} {ls : List Lexeme}

theorem Reads.ordinary_inv (hc : isOrdinary c = true) (h : Reads (c :: cs) ls) :
    ∃ rest, ls = .ordinary c :: rest ∧ Reads cs rest := by
  obtain ⟨hcomment, hquote, hdelimiter⟩ := isOrdinary_iff.1 hc
  cases h with
  | ordinary _ hrest => exact ⟨_, rfl, hrest⟩
  | delimiter hd => rw [hd] at hdelimiter; cases hdelimiter
  | comment => exact absurd rfl hcomment
  | literal hq | unfinished hq => rw [hq] at hquote; cases hquote
  | unfinishedRaw hq => rw [isQuote_of_isRawQuote hq] at hquote; cases hquote

theorem Reads.delimiter_inv (hc : isDelimiter c = true) (h : Reads (c :: cs) ls) :
    ∃ rest, ls = .delimiter c :: rest ∧ Reads cs rest := by
  have hquote := not_isQuote_of_isDelimiter hc
  cases h with
  | ordinary ho => rw [(isOrdinary_iff.1 ho).2.2] at hc; cases hc
  | delimiter _ hrest => exact ⟨_, rfl, hrest⟩
  | comment => cases hc
  | literal hq | unfinished hq => rw [hq] at hquote; cases hquote
  | unfinishedRaw hq => rw [isQuote_of_isRawQuote hq] at hquote; cases hquote

theorem Reads.comment_inv (h : Reads ('#' :: cs) ls) :
    ∃ body below rest, cs = body ++ below ∧ EndsLine body below ∧ ls = .comment body :: rest ∧
      Reads below rest := by
  cases h with
  | ordinary ho => cases ho
  | delimiter hd => cases hd
  | comment hend hrest => exact ⟨_, _, _, rfl, hend, rfl, hrest⟩
  | literal hq | unfinished hq | unfinishedRaw hq => cases hq

theorem Reads.quote_inv (hq : isQuote q = true) (h : Reads (q :: cs) ls) :
    (∃ body after rest, cs = body ++ q :: after ∧ Inside q body ∧ ls = .literal q body :: rest ∧
      Reads after rest) ∨
    (∃ body below rest, cs = body ++ below ∧ isRawQuote q = false ∧ CutOff q body ∧
      EndsLine body below ∧ ls = .unfinished q body :: rest ∧ Reads below rest) ∨
    (isRawQuote q = true ∧ Inside q cs ∧ ls = [.unfinished q cs]) := by
  cases h with
  | ordinary ho => rw [(isOrdinary_iff.1 ho).2.1] at hq; cases hq
  | delimiter hd => rw [not_isQuote_of_isDelimiter hd] at hq; cases hq
  | comment => cases hq
  | literal _ hbody hrest => exact Or.inl ⟨_, _, _, rfl, hbody, rfl, hrest⟩
  | unfinished _ hraw hbody hend hrest =>
    exact Or.inr (Or.inl ⟨_, _, _, rfl, hraw, hbody, hend, rfl, hrest⟩)
  | unfinishedRaw hraw hbody => exact Or.inr (Or.inr ⟨hraw, hbody, rfl⟩)

end Inversion

/-! ## Strings -/

section Strings

variable {q : Char} {b b' cs cs' : List Char}

theorem Inside.notMem (h : Inside q b) (hraw : isRawQuote q = false) : '\n' ∉ b := by
  induction h with
  | nil => exact List.not_mem_nil
  | char _ hc _ ih => exact List.not_mem_cons_of_ne_of_not_mem (hc hraw).2.symm ih
  | escape _ hc _ ih =>
    apply List.not_mem_cons_of_ne_of_not_mem (by decide)
    exact List.not_mem_cons_of_ne_of_not_mem hc.symm ih

theorem CutOff.notMem (h : CutOff q b) (hraw : isRawQuote q = false) : '\n' ∉ b := by
  cases h with
  | inside h => exact h.notMem hraw
  | backslash h =>
    rw [List.mem_append, List.mem_singleton]
    rintro (hmem | hn)
    · exact h.notMem hraw hmem
    · cases hn

/-- Between its quotes a raw string has any text without its quote. -/
theorem inside_raw (hraw : isRawQuote q = true) (h : q ∉ b) : Inside q b := by
  induction b with
  | nil => exact .nil
  | cons c b ih =>
    obtain ⟨hc, hb⟩ := List.ne_and_not_mem_of_not_mem_cons h
    exact .char hc.symm (fun hline => by rw [hraw] at hline; cases hline) (ih hb)

theorem Inside.cons_inv {c : Char} (h : Inside q (c :: cs)) :
    (c ≠ q ∧ (isRawQuote q = false → c ≠ '\\' ∧ c ≠ '\n') ∧ Inside q cs) ∨
      (c = '\\' ∧ isRawQuote q = false ∧ ∃ d rest, cs = d :: rest ∧ Inside q rest) := by
  cases h with
  | char hc hline hrest => exact Or.inl ⟨hc, hline, hrest⟩
  | escape hraw _ hrest => exact Or.inr ⟨rfl, hraw, _, _, rfl, hrest⟩

/-- A string goes on behind no quote of its own. -/
theorem Inside.not_append_quote (h : Inside q b) (hq : isQuote q = true) :
    ¬ Inside q (b ++ q :: cs) := by
  induction h with
  | nil =>
    intro h
    rcases h.cons_inv with ⟨hc, -⟩ | ⟨rfl, -⟩
    · exact hc rfl
    · cases hq
  | char _ hline _ ih =>
    intro h
    rcases h.cons_inv with ⟨-, -, hrest⟩ | ⟨hc, hraw, -⟩
    · exact ih hrest
    · exact (hline hraw).1 hc
  | escape hraw _ _ ih =>
    intro h
    rcases h.cons_inv with ⟨-, hline, -⟩ | ⟨-, -, d, rest, heq, hrest⟩
    · exact (hline hraw).1 rfl
    · rw [← (List.cons.inj heq).2] at hrest
      exact ih hrest

theorem CutOff.not_append_quote (h : Inside q b) (hq : isQuote q = true) :
    ¬ CutOff q (b ++ q :: cs) := by
  generalize htext : b ++ q :: cs = text
  intro hcut
  cases hcut with
  | inside hbody => exact h.not_append_quote hq (htext ▸ hbody)
  | @backslash body hbody =>
    rcases List.eq_nil_or_concat cs with rfl | ⟨front, c, rfl⟩
    · have hlast : q = '\\' := (List.append_inj' htext rfl).2 |> fun h => (List.cons.inj h).1
      rw [hlast] at hq
      cases hq
    · have hlast : (b ++ q :: front) ++ [c] = body ++ ['\\'] := by
        rw [← htext]
        simp
      have hfront : b ++ q :: front = body := (List.append_inj' hlast rfl).1
      exact h.not_append_quote hq (hfront ▸ hbody)

/-- The first quote that is not escaped closes a string. -/
theorem Inside.unique (h : Inside q b) (h' : Inside q b') (hq : isQuote q = true)
    (heq : b ++ q :: cs = b' ++ q :: cs') : b = b' ∧ cs = cs' := by
  induction h generalizing b' with
  | nil =>
    cases h' with
    | nil => exact ⟨rfl, (List.cons.inj heq).2⟩
    | char hc => exact absurd (List.cons.inj heq).1.symm hc
    | escape =>
      rw [(List.cons.inj heq).1] at hq
      cases hq
  | char hne hline _ ih =>
    cases h' with
    | nil => exact absurd (List.cons.inj heq).1 hne
    | char _ _ h' =>
      obtain ⟨rfl, htail⟩ := List.cons.inj heq
      obtain ⟨rfl, rfl⟩ := ih h' htail
      exact ⟨rfl, rfl⟩
    | escape hraw => exact absurd (List.cons.inj heq).1 (hline hraw).1
  | escape hraw _ _ ih =>
    cases h' with
    | nil =>
      rw [← (List.cons.inj heq).1] at hq
      cases hq
    | char _ hline => exact absurd (List.cons.inj heq).1.symm (hline hraw).1
    | escape _ _ h' =>
      obtain ⟨-, htail⟩ := List.cons.inj heq
      obtain ⟨rfl, hbody⟩ := List.cons.inj htail
      obtain ⟨rfl, rfl⟩ := ih h' hbody
      exact ⟨rfl, rfl⟩

theorem CutOff.append (b' : List Char) (h : CutOff q b)
    (hinside : ∀ body, Inside q body → Inside q (b' ++ body)) :
    CutOff q (b' ++ b) := by
  cases h with
  | inside h => exact .inside (hinside _ h)
  | backslash h =>
    rw [← List.append_assoc]
    exact .backslash (hinside _ h)

/-- A line either closes a string or cuts it off. -/
theorem closed_or_cutOff (hraw : isRawQuote q = false) : ∀ line : List Char, '\n' ∉ line →
    (∃ body rest, line = body ++ q :: rest ∧ Inside q body) ∨ CutOff q line
  | [], _ => Or.inr (.inside .nil)
  | c :: line, h => by
    obtain ⟨hc, hline⟩ := List.ne_and_not_mem_of_not_mem_cons h
    by_cases hq : c = q
    · exact Or.inl ⟨[], line, by rw [hq]; rfl, .nil⟩
    by_cases hescape : c = '\\'
    · subst hescape
      match line, hline with
      | [], _ => exact Or.inr (.backslash .nil)
      | d :: line, hline =>
        obtain ⟨hd, hline⟩ := List.ne_and_not_mem_of_not_mem_cons hline
        rcases closed_or_cutOff hraw line hline with ⟨body, rest, rfl, hbody⟩ | hcut
        · exact Or.inl ⟨'\\' :: d :: body, rest, rfl, .escape hraw hd.symm hbody⟩
        · exact Or.inr (hcut.append ['\\', d] fun _ => .escape hraw hd.symm)
    · have hplain : isRawQuote q = false → c ≠ '\\' ∧ c ≠ '\n' := fun _ => ⟨hescape, hc.symm⟩
      rcases closed_or_cutOff hraw line hline with ⟨body, rest, rfl, hbody⟩ | hcut
      · exact Or.inl ⟨c :: body, rest, rfl, .char hq hplain hbody⟩
      · exact Or.inr (hcut.append [c] fun _ => .char hq hplain)

end Strings

/-! ## One reading -/

section Readings

variable {cs : List Char} {ls ls' : List Lexeme}

/-- A string that is closed on its line is not cut off there. -/
theorem Inside.not_cutOff {q : Char} {b b' cs cs' : List Char} (h : Inside q b)
    (hq : isQuote q = true) (hraw : isRawQuote q = false) (hcut : CutOff q b')
    (hend : EndsLine b' cs') (heq : b ++ q :: cs = b' ++ cs') : False := by
  have hb' : b' = b ++ q :: restOfLine cs := by
    have hne : q ≠ '\n' := ne_of_isQuote hq (by decide)
    have hreturn : q ≠ '\r' := ne_of_isQuote hq (by decide)
    calc b' = restOfLine (b' ++ cs') := hend.symm
      _ = restOfLine (b ++ q :: cs) := by rw [heq]
      _ = b ++ restOfLine (q :: cs) :=
        restOfLine_append (h.notMem hraw) fun hn => hne (Option.some.inj hn)
      _ = b ++ q :: restOfLine cs := by rw [restOfLine_cons hne fun hr => absurd hr hreturn]
  rw [hb'] at hcut
  exact CutOff.not_append_quote h hq hcut

theorem Inside.not_mem_raw {q : Char} {b : List Char} (h : Inside q b)
    (hraw : isRawQuote q = true) : q ∉ b := by
  induction h with
  | nil => exact List.not_mem_nil
  | char hc _ _ ih => exact List.not_mem_cons_of_ne_of_not_mem hc.symm ih
  | escape hline => rw [hraw] at hline; cases hline

/-- A text has one reading at most. -/
theorem Reads.unique (h : Reads cs ls) (h' : Reads cs ls') : ls = ls' := by
  induction h generalizing ls' with
  | nil => cases h'; rfl
  | ordinary hc _ ih =>
    obtain ⟨rest, rfl, hrest⟩ := h'.ordinary_inv hc
    rw [ih hrest]
  | delimiter hc _ ih =>
    obtain ⟨rest, rfl, hrest⟩ := h'.delimiter_inv hc
    rw [ih hrest]
  | comment hend _ ih =>
    obtain ⟨body, below, rest, heq, hend', rfl, hrest⟩ := h'.comment_inv
    obtain ⟨rfl, rfl⟩ := hend.unique hend' heq
    rw [ih hrest]
  | literal hq hbody _ ih =>
    rcases h'.quote_inv hq with ⟨body, after, rest, heq, hbody', rfl, hrest⟩ |
      ⟨body, below, rest, heq, hraw, hcut, hend, rfl, hrest⟩ | ⟨hraw, hbody', rfl⟩
    · obtain ⟨rfl, rfl⟩ := hbody.unique hbody' hq heq
      rw [ih hrest]
    · exact (hbody.not_cutOff hq hraw hcut hend heq).elim
    · exact absurd (by simp) (hbody'.not_mem_raw hraw)
  | unfinished hq hraw hcut hend _ ih =>
    rcases h'.quote_inv hq with ⟨body, after, rest, heq, hbody, rfl, hrest⟩ |
      ⟨body, below, rest, heq, -, -, hend', rfl, hrest⟩ | ⟨hraw', -, -⟩
    · exact (hbody.not_cutOff hq hraw hcut hend heq.symm).elim
    · obtain ⟨rfl, rfl⟩ := hend.unique hend' heq
      rw [ih hrest]
    · rw [hraw] at hraw'; cases hraw'
  | unfinishedRaw hraw hbody =>
    rcases h'.quote_inv (isQuote_of_isRawQuote hraw) with ⟨body, after, rest, rfl, -, -, -⟩ |
      ⟨body, below, rest, -, hline, -, -, -, -⟩ | ⟨-, -, rfl⟩
    · exact absurd (by simp) (hbody.not_mem_raw hraw)
    · rw [hraw] at hline; cases hline
    · rfl

/-- Every text has a reading. -/
theorem exists_reads (cs : List Char) : ∃ ls, Reads cs ls := by
  -- By the length: a string or a comment can take up any part of the text.
  induction hlength : cs.length using Nat.strong_induction_on generalizing cs with
  | _ n ih =>
    cases cs with
    | nil => exact ⟨[], .nil⟩
    | cons c cs =>
      have hshorter : ∀ front rest, cs = front ++ rest → ∃ ls, Reads rest ls := by
        rintro front rest rfl
        refine ih rest.length ?_ rest rfl
        rw [← hlength, List.length_cons, List.length_append]
        omega
      obtain ⟨line, below, rfl, hend⟩ := exists_endsLine cs
      obtain ⟨lsBelow, hlsBelow⟩ := hshorter line below rfl
      rcases char_cases c with hc | hc | rfl | hq
      · obtain ⟨ls, hls⟩ := hshorter [] _ rfl
        exact ⟨_, .ordinary hc hls⟩
      · obtain ⟨ls, hls⟩ := hshorter [] _ rfl
        exact ⟨_, .delimiter hc hls⟩
      · exact ⟨_, .comment hend hlsBelow⟩
      by_cases hraw : isRawQuote c = true
      · by_cases hclosed : c ∈ line ++ below
        · obtain ⟨body, rest, heq, hbody⟩ := List.eq_append_cons_of_mem hclosed
          obtain ⟨ls, hls⟩ := hshorter (body ++ [c]) rest (by rw [heq]; simp)
          exact ⟨_, heq ▸ Reads.literal hq (inside_raw hraw hbody) hls⟩
        · exact ⟨_, .unfinishedRaw hraw (inside_raw hraw hclosed)⟩
      · have hline : isRawQuote c = false := Bool.eq_false_iff.2 hraw
        rcases closed_or_cutOff hline line hend.notMem with ⟨body, rest, rfl, hbody⟩ | hcut
        · obtain ⟨ls, hls⟩ := hshorter (body ++ [c]) (rest ++ below) (by simp)
          rw [List.append_assoc, List.cons_append]
          exact ⟨_, .literal hq hbody hls⟩
        · exact ⟨_, .unfinished hq hline hcut hend hlsBelow⟩

end Readings

end PromqlServer.Query
