import PromqlServer.Proofs.Query.Braces
import PromqlServer.Proofs.Query.Matchers
import PromqlServer.Proofs.Query.Ranges

/-!
Comments in front of the cursor. `open_brace` knows no comments, so a quote in one hides the braces
behind it. A comment does not matter (`Apart`) if it has no quotes and no braces and stands neither
in a value nor between two things that are looked for together, such as a metric name and its brace.
Comments of this kind can be taken out one after the other, from the last one to the first
(`completionContext_withoutComments`).
-/

namespace PromqlServer.Query

open PromqlServer.Text

/-! ## The text behind a comment -/

/-- What a label name, a matching operator or a metric name can stand in front of, with white space
between. -/
def binders : List Char := ['{', '=', '!', '"']

/-- The text starts with the end of a line, and what follows the white space there binds to nothing
in front of it. -/
def Detached (text : List Char) : Prop :=
  ∃ blanks rest, text = blanks ++ rest ∧ '\n' ∈ blanks ∧ (∀ c ∈ blanks, isBlank c = true) ∧
    ∀ c ∈ rest.head?, isBlank c = false ∧ c ∉ binders

section Behind

variable {front comment y y' text inside label : List Char} {x : Char}

/-- Some character stands in front of a brace or a double quote that follows. -/
theorem Detached.cut (h : Detached (y ++ x :: y')) (hx : x ∈ binders) :
    ∃ blanks c more, y = blanks ++ c :: more ∧ '\n' ∈ blanks ∧ (∀ c ∈ blanks, isBlank c = true) ∧
      isBlank c = false ∧ c ∉ binders := by
  obtain ⟨blanks, rest, heq, hfeed, hblanks, hrest⟩ := h
  have hblank : ∀ x ∈ binders, isBlank x = false := by simp [binders, isBlank]
  rcases List.append_eq_append_iff.1 heq with ⟨more, rfl, hmore⟩ | ⟨more, rfl, rfl⟩
  · cases more with
    | nil =>
      obtain rfl : rest = x :: y' := hmore.symm
      exact absurd hx (hrest x rfl).2
    | cons d more =>
      obtain ⟨rfl, -⟩ := List.cons.inj hmore
      have hd := hblanks x (by simp)
      rw [hblank x hx] at hd
      cases hd
  · cases more with
    | nil => exact absurd hx (hrest x rfl).2
    | cons c more => exact ⟨blanks, c, more, rfl, hfeed, hblanks, hrest c rfl⟩

theorem labelSuffix_append (h : '\n' ∈ text) : labelSuffix (front ++ text) = labelSuffix text := by
  rw [labelSuffix, longestSuffix_append ⟨'\n', h, by decide⟩, labelSuffix]

theorem metricSuffix_append (h : '\n' ∈ text) :
    metricSuffix (front ++ text) = metricSuffix text := by
  rw [metricSuffix, longestSuffix_append ⟨'\n', h, by decide⟩, metricSuffix]

theorem Detached.feed (h : Detached y) : '\n' ∈ y := by
  obtain ⟨blanks, rest, rfl, hfeed, -⟩ := h
  exact List.mem_append_left _ hfeed

/-- The metric name in front of a brace is found behind the comment. -/
theorem Detached.metricSuffix_eq (h : Detached (y ++ '{' :: inside)) (front : List Char) :
    metricSuffix (dropSuffix isBlank (front ++ y)) = metricSuffix (dropSuffix isBlank y) := by
  obtain ⟨blanks, c, more, rfl, hfeed, -, hc, -⟩ := h.cut (by decide)
  have hstop : ∃ d ∈ c :: more, isBlank d = false := ⟨c, List.mem_cons_self, hc⟩
  rw [← List.append_assoc, dropSuffix_append hstop, dropSuffix_append hstop, List.append_assoc]
  exact metricSuffix_append (List.mem_append_left _ hfeed)

theorem Detached.endsInMatcher_iff (h : Detached (y ++ '"' :: y')) (front : List Char) :
    EndsInMatcher (front ++ y) label ↔ EndsInMatcher y label := by
  obtain ⟨blanks, c, more, rfl, hfeed, hblanks, hc, hbinds⟩ := h.cut (by decide)
  rcases List.eq_nil_or_concat blanks with rfl | ⟨blanks, d, rfl⟩
  · cases hfeed
  · have hd : isBlank d = true := hblanks d (by simp)
    have hsub : ['=', '!'] ⊆ binders := by decide
    have hop : c ∉ ['=', '!'] := fun hmem => hbinds (hsub hmem)
    rw [List.concat_eq_append, List.append_assoc, List.singleton_append, ← List.append_assoc,
      endsInMatcher_word _ hd hc hop, endsInMatcher_word _ hd hc hop]

/-- Without a value at the end of a text none is typed behind it, up to the next double quote. -/
theorem labelValue_append_of_notMem (h : labelValue front = none) (htext : '"' ∉ text) :
    labelValue (front ++ text) = none := by
  by_cases hquote : '"' ∈ front
  · obtain ⟨stem, typed, rfl, htyped⟩ := exists_last_cut hquote
    have hmore : '"' ∉ typed ++ text := by simp [htyped, htext]
    rw [labelValue_append htyped] at h
    rw [List.append_assoc, List.cons_append, labelValue_append hmore]
    simpa using h
  · exact labelValue_of_notMem (by simp [hquote, htext])

/-- Whether a value is being typed behind the comment does not depend on it. -/
theorem Detached.labelValue_eq (h : Detached y) (hfront : labelValue front = none)
    (hcomment : '"' ∉ comment) :
    labelValue (front ++ (comment ++ y)) = labelValue (front ++ y) := by
  by_cases hquote : '"' ∈ y
  · obtain ⟨y, typed, rfl, htyped⟩ := exists_last_cut hquote
    ext ⟨label, typed'⟩
    rw [labelValue_eq_some_iff, labelValue_eq_some_iff,
      ← List.append_assoc, ← List.append_assoc, ← List.append_assoc, endsInValue_append htyped,
      endsInValue_append htyped, h.endsInMatcher_iff, h.endsInMatcher_iff]
  · rw [labelValue_append_of_notMem hfront hquote, labelValue_append_of_notMem hfront]
    simp [hcomment, hquote]

end Behind

/-! ## One comment -/

section Single

variable {front comment selected inside y : List Char} {c : Char}

/-- White space is no delimiter, no quote and no start of a comment. -/
theorem isOrdinary_of_isBlank (h : isBlank c = true) : isOrdinary c = true := by
  have hne : ∀ d : Char, isBlank d = false → c ≠ d := by
    rintro d hd rfl
    rw [h] at hd
    cases hd
  rcases char_cases c with hc | hc | hc | hc
  · exact hc
  · simp only [isDelimiter, isOpener, isCloser, Bool.or_eq_true, decide_eq_true_eq] at hc
    rcases hc with ((hc | hc) | hc) | ((hc | hc) | hc) <;> exact absurd hc (hne _ (by decide))
  · exact absurd hc (hne _ (by decide))
  · simp only [isQuote, Bool.or_eq_true, decide_eq_true_eq] at hc
    rcases hc with (hc | hc) | hc
    · exact absurd hc (hne _ (by decide))
    · simp [isBlank, hc] at h
    · simp [isBlank, hc] at h

theorem isMute_of_isBlank (h : isBlank c = true) : isMute c = true ∧ c ≠ '\\' := by
  obtain ⟨-, hquote, hdelimiter⟩ := isOrdinary_iff.1 (isOrdinary_of_isBlank h)
  refine ⟨isMute_iff.2 ⟨hquote, ?_, ?_⟩, ?_⟩
  · rintro rfl
    cases hdelimiter
  · rintro rfl
    cases hdelimiter
  · rintro rfl
    cases h

theorem labelValue_inside (h : labelValue (selected ++ '{' :: inside) = none) :
    labelValue inside = none := by
  by_contra hsome
  obtain ⟨⟨label, typed⟩, hfound⟩ := Option.ne_none_iff_exists'.1 hsome
  obtain ⟨text, rfl, htyped, hmatcher⟩ := labelValue_eq_some_iff.1 hfound
  have hends : EndsInValue (selected ++ '{' :: (text ++ '"' :: typed)) label typed := by
    refine ⟨selected ++ '{' :: text, by simp, htyped, ?_⟩
    exact (endsInMatcher_cut selected (by decide) (by decide) (by decide)).2 hmatcher
  rw [labelValue_eq_some_iff.2 hends] at h
  cases h

/-- The selector starts in front of the comment. -/
theorem contextAfter_early (hcomment : '"' ∉ comment)
    (hfront : labelValue (selected ++ '{' :: inside) = none) (hy : Detached y)
    (hbrace : openBrace (selected ++ '{' :: (inside ++ (comment ++ y))) = some (byteSize selected))
    (hbrace' : openBrace (selected ++ '{' :: (inside ++ y)) = some (byteSize selected)) :
    contextAfter (selected ++ '{' :: (inside ++ (comment ++ y)))
      = contextAfter (selected ++ '{' :: (inside ++ y)) := by
  have hvalue := hy.labelValue_eq (labelValue_inside hfront) hcomment
  have hopen : quoteOpen (inside ++ (comment ++ y)) = quoteOpen (inside ++ y) := by
    simp [quoteOpen, List.count_append, List.count_eq_zero_of_not_mem hcomment]
  have hlabel : labelSuffix (inside ++ (comment ++ y)) = labelSuffix (inside ++ y) := by
    rw [← List.append_assoc, labelSuffix_append hy.feed, labelSuffix_append hy.feed]
  rw [contextAfter_inside hbrace, contextAfter_inside hbrace', hvalue, hopen, hlabel]

/-- The selector starts behind the comment. -/
theorem contextAfter_late (hy : Detached (y ++ '{' :: inside))
    (hbrace : openBrace (front ++ comment ++ y ++ '{' :: inside)
      = some (byteSize (front ++ comment ++ y)))
    (hbrace' : openBrace (front ++ y ++ '{' :: inside) = some (byteSize (front ++ y))) :
    contextAfter (front ++ comment ++ y ++ '{' :: inside)
      = contextAfter (front ++ y ++ '{' :: inside) := by
  rw [contextAfter_inside hbrace, contextAfter_inside hbrace', hy.metricSuffix_eq,
    hy.metricSuffix_eq]

/-- A comment without quotes and braces does not matter if no value is being typed in front of it
and nothing behind it binds to what is in front of it. -/
theorem contextAfter_comment (hcomment : ∀ c ∈ comment, isMute c = true)
    (hfront : labelValue front = none) (hy : Detached y) :
    contextAfter (front ++ comment ++ y) = contextAfter (front ++ y) := by
  have hquote : '"' ∉ comment := fun hmem => absurd (hcomment _ hmem) (by decide)
  obtain ⟨d, more, rfl, hd⟩ : ∃ d more, y = d :: more ∧ isBlank d = true := by
    obtain ⟨blanks, rest, rfl, hfeed, hblanks, -⟩ := id hy
    cases blanks with
    | nil => cases hfeed
    | cons d blanks => exact ⟨d, blanks ++ rest, rfl, hblanks d List.mem_cons_self⟩
  obtain ⟨hmute, hback⟩ := isMute_of_isBlank hd
  have hsame := searched_mute (a := front) hcomment hmute hback
  rw [List.append_cons, List.append_cons front]
  rcases openBrace_alike hsame more with ⟨hnone, hnone'⟩ | ⟨b, b', hb, hb', hplace⟩
  · rw [contextAfter, contextAfter, hnone, hnone', ← List.append_cons, ← List.append_cons,
      metricSuffix_append hy.feed, metricSuffix_append hy.feed]
  cases hplace with
  | early heq hmem =>
    subst heq
    rw [hsame, searched_rests hmute hback] at hmem
    obtain ⟨selected, inside, rfl, rfl, -⟩ := (standing_searched front).braces b hmem
    have hlong : selected ++ '{' :: inside ++ comment ++ [d] ++ more
        = selected ++ '{' :: (inside ++ (comment ++ d :: more)) := by simp
    have hshort : selected ++ '{' :: inside ++ [d] ++ more
        = selected ++ '{' :: (inside ++ d :: more) := by simp
    rw [hlong] at hb ⊢
    rw [hshort] at hb' ⊢
    exact contextAfter_early hquote hfront hy hb hb'
  | @late behind inside hmore hsize hsize' =>
    subst hmore hsize hsize'
    have hlong : front ++ comment ++ [d] ++ (behind ++ '{' :: inside)
        = front ++ comment ++ (d :: behind) ++ '{' :: inside := by simp
    have hshort : front ++ [d] ++ (behind ++ '{' :: inside)
        = front ++ (d :: behind) ++ '{' :: inside := by simp
    rw [hlong, List.append_assoc _ [d], List.singleton_append] at hb
    rw [hshort, List.append_assoc _ [d], List.singleton_append] at hb'
    rw [hlong, hshort]
    exact contextAfter_late hy hb hb'

/-- Below some lines the context is that of the text up to the offset that is found from there. -/
theorem completionContext_below (above rest : List Char) {line : Nat} (m character : Nat)
    (hline : line = (Position.origin.after above).line + 1 + m) :
    completionContext (above ++ '\n' :: rest) ⟨line, character⟩
      = (offsetAt rest ⟨m, character⟩).bind fun n =>
          (takeBytes n rest).bind fun behind => contextAfter (above ++ '\n' :: behind) := by
  subst hline
  have hlines := offsetAt_lines above rest m character
  cases hoffset : offsetAt rest ⟨m, character⟩ with
  | none =>
    rw [hoffset] at hlines
    exact completionContext_eq_none hlines
  | some n =>
    obtain ⟨behind, after, rfl, rfl⟩ := offsetAt_cut hoffset
    rw [hoffset, Option.map_some, ← byteSize_append, ← List.append_cons] at hlines
    have hcut : above ++ '\n' :: (behind ++ after) = (above ++ '\n' :: behind) ++ after := by simp
    rw [completionContext_eq hcut hlines]
    simp

/-- The text between a comment and the cursor, which is on a line below. -/
structure Between (front y : List Char) (p : Position) (typed : List Char) : Prop where
  part : typed <+: y
  feed : '\n' ∈ typed
  offset : offsetAt (front ++ y) p = some (byteSize (front ++ typed))

/-- With a comment on a line above or without it, the cursor has the same text behind the comment in
front of it. -/
theorem completionContext_comment {p : Position} (hfeed : '\n' ∉ comment)
    (hcomment : ∀ c ∈ comment, isMute c = true) (hfront : labelValue front = none)
    (hline : (Position.origin.after front).line < p.line) (hy : restOfLine y = [])
    (hdetached : ∀ typed, Between front y p typed → Detached typed) :
    completionContext (front ++ comment ++ y) p = completionContext (front ++ y) p := by
  have hsame : ∀ ending, '\n' ∉ ending →
      (Position.origin.after (front ++ ending)).line = (Position.origin.after front).line := by
    intro ending hending
    rw [Position.after_append, Position.after_of_notMem hending]
  by_cases hnil : y = []
  · have hpast := offsetAt_past hline
    rw [← hsame comment hfeed] at hline
    rw [hnil, List.append_nil, List.append_nil, completionContext_eq_none hpast,
      completionContext_eq_none (offsetAt_past hline)]
  obtain ⟨ending, rest, rfl, hending⟩ :
      ∃ ending rest, y = ending ++ '\n' :: rest ∧ '\n' ∉ ending := by
    rcases cases_of_restOfLine hy with rfl | ⟨rest, rfl⟩ | ⟨rest, rfl⟩
    · exact absurd rfl hnil
    · exact ⟨[], rest, rfl, List.not_mem_nil⟩
    · exact ⟨['\r'], rest, rfl, by decide⟩
  obtain ⟨line, character⟩ := p
  obtain ⟨m, hm⟩ := Nat.exists_eq_add_of_le (Nat.succ_le_of_lt hline)
  have hlong : line = (Position.origin.after (front ++ (comment ++ ending))).line + 1 + m := by
    rw [hsame _ (by simp [hfeed, hending])]
    exact hm
  have hshort : line = (Position.origin.after (front ++ ending)).line + 1 + m := by
    rw [hsame _ hending]
    exact hm
  have htext : front ++ comment ++ (ending ++ '\n' :: rest)
      = front ++ (comment ++ ending) ++ '\n' :: rest := by simp
  have htext' : front ++ (ending ++ '\n' :: rest) = front ++ ending ++ '\n' :: rest := by simp
  have hbelow := completionContext_below (front ++ ending) rest m character hshort
  rw [htext, htext', hbelow, completionContext_below _ _ m character hlong]
  cases hoffset : offsetAt rest ⟨m, character⟩ with
  | none => rfl
  | some n =>
    obtain ⟨behind, after, rfl, rfl⟩ := offsetAt_cut hoffset
    have hbetween : Between front (ending ++ '\n' :: (behind ++ after)) ⟨line, character⟩
        (ending ++ '\n' :: behind) := by
      refine ⟨⟨after, by simp⟩, by simp, ?_⟩
      rw [htext', hshort, offsetAt_lines, hoffset, Option.map_some, ← byteSize_append]
      simp
    have hstep := contextAfter_comment hcomment hfront (hdetached _ hbetween)
    simpa using hstep

end Single

/-! ## All comments above a line -/

def Lexeme.isComment : Lexeme → Bool
  | .comment _ => true
  | _ => false

/-- White space and comments. -/
def Lexeme.isSpace : Lexeme → Bool
  | .ordinary c => isBlank c
  | .comment _ => true
  | _ => false

/-- The text of lexemes, without the comments above a line. -/
def withoutComments (line : Nat) (ts : List Token) : List Char :=
  (ts.filter fun t => !(t.lexeme.isComment && t.start.line < line)).flatMap fun t => t.lexeme.text

/-- A comment does not matter at `p`: it has no quotes and no braces, no value is being typed where
it starts, and the next thing behind it, if it stands in front of `p`, binds to nothing in front of
it. -/
structure Apart (p : Position) (front body : List Char) (below : List Token) : Prop where
  mute : ∀ c ∈ body, isMute c = true
  untyped : ∀ label typed, ¬ EndsInValue front label typed
  unbound : ∀ t, below.find? (fun t => !t.lexeme.isSpace) = some t → t.start < p →
    ∀ c ∈ t.lexeme.text.head?, c ∉ binders

section Removal

variable {line : Nat} {p q q' start : Position} {t : Token} {ts : List Token} {l : Lexeme}
  {ls : List Lexeme} {cs front blanks rest body : List Char} {c : Char}

theorem withoutComments_kept (h : t.lexeme.isComment = false ∨ ¬ t.start.line < line) :
    withoutComments line (t :: ts) = t.lexeme.text ++ withoutComments line ts := by
  have hkept : (!(t.lexeme.isComment && decide (t.start.line < line))) = true := by
    rcases h with h | h <;> simp [h]
  rw [withoutComments, List.filter_cons, if_pos hkept, List.flatMap_cons, withoutComments]

theorem withoutComments_comment (h : start.line < line) :
    withoutComments line (⟨start, .comment body⟩ :: ts) = withoutComments line ts := by
  have hout : ¬ (!(Lexeme.isComment (.comment body) && decide (start.line < line))) = true := by
    simp [Lexeme.isComment, h]
  rw [withoutComments, List.filter_cons, if_neg hout, withoutComments]

/-- All lexemes but white space and comments show in their first character what they are. -/
theorem Reads.head_of_not_space (h : Reads cs (l :: ls)) (hl : l.isSpace = false) :
    ∃ x more, l.text = x :: more ∧ isBlank x = false ∧ l.isComment = false := by
  have hblank : ∀ x, isOrdinary x = false → isBlank x = false := by
    intro x hx
    rw [Bool.eq_false_iff]
    intro hb
    rw [isOrdinary_of_isBlank hb] at hx
    cases hx
  cases h with
  | @ordinary c => exact ⟨c, [], rfl, hl, rfl⟩
  | @delimiter c _ _ hc =>
    exact ⟨c, [], rfl, hblank c (by simp [isOrdinary, hc]), rfl⟩
  | comment => cases hl
  | @literal q body _ _ hq =>
    exact ⟨q, body ++ [q], rfl, hblank q (by simp [isOrdinary, hq]), rfl⟩
  | @unfinished q body _ _ hq =>
    exact ⟨q, body, rfl, hblank q (by simp [isOrdinary, hq]), rfl⟩
  | @unfinishedRaw q body hraw =>
    exact ⟨q, body, rfl, hblank q (by simp [isOrdinary, isQuote_of_isRawQuote hraw]), rfl⟩

/-- Two positions of a text are the same, or both are at the end of a line. -/
def Aligned (q q' : Position) (cs : List Char) : Prop :=
  q = q' ∨ q.line = q'.line ∧ restOfLine cs = []

theorem Aligned.next (h : Aligned q q' (c :: cs)) : Aligned (q.next c) (q'.next c) cs := by
  rcases h with rfl | ⟨hline, hend⟩
  · exact Or.inl rfl
  rcases cases_of_restOfLine hend with hnil | ⟨rest, heq⟩ | ⟨rest, heq⟩
  · cases hnil
  · obtain ⟨rfl, -⟩ := List.cons.inj heq
    left
    rw [Position.next, Position.next, if_pos rfl, if_pos rfl, hline]
  · obtain ⟨rfl, rfl⟩ := List.cons.inj heq
    right
    rw [Position.next_of_ne (by decide), Position.next_of_ne (by decide)]
    exact ⟨hline, restOfLine_feed⟩

/-- A comment leads to the end of its line. -/
theorem Aligned.comment (h : Aligned q q' ('#' :: (body ++ cs))) (hend : EndsLine body cs) :
    Aligned (q.after ('#' :: body)) q' cs := by
  have hfeed : '\n' ∉ '#' :: body := by simp [hend.notMem]
  refine Or.inr ⟨?_, hend.rest⟩
  rw [Position.after_of_notMem hfeed]
  rcases h with rfl | ⟨hline, -⟩
  · rfl
  · exact hline

theorem Aligned.eq (h : Aligned q q' (c :: cs)) (hc : isBlank c = false) : q = q' := by
  rcases h with heq | ⟨-, hend⟩
  · exact heq
  rcases cases_of_restOfLine hend with hnil | ⟨rest, heq⟩ | ⟨rest, heq⟩
  · cases hnil
  all_goals
    obtain ⟨rfl, -⟩ := List.cons.inj heq
    cases hc

/-- The first character that is neither white space nor in a comment is the first one of a lexeme.
It stands where the lexeme does, since the comments above are followed by line endings. -/
theorem find_withoutComments (h : Reads cs ls) (hq : Aligned q q' cs)
    (htext : withoutComments line (tokensFrom q ls) = blanks ++ c :: rest)
    (hblanks : ∀ b ∈ blanks, isBlank b = true) (hc : isBlank c = false) (hcomment : c ≠ '#') :
    ∃ t, (tokensFrom q ls).find? (fun t => !t.lexeme.isSpace) = some t ∧
      t.lexeme.text.head? = some c ∧ t.start = q'.after blanks := by
  induction ls generalizing cs q q' blanks with
  | nil => exact absurd htext.symm (by simp [tokensFrom, withoutComments])
  | cons l ls ih =>
    have hcs : l.text ++ textOf ls = cs := by rw [← h.textOf_eq, textOf_cons]
    -- A character that is not white space is the one that is looked for.
    have hhead : ∀ {x : Char} {more : List Char}, x :: more = blanks ++ c :: rest →
        isBlank x = false → blanks = [] ∧ x = c := by
      intro x more heq hx
      cases blanks with
      | nil => exact ⟨rfl, (List.cons.inj heq).1⟩
      | cons b blanks =>
        rw [(List.cons.inj heq).1, hblanks b List.mem_cons_self] at hx
        cases hx
    rw [tokensFrom] at htext ⊢
    cases hspace : l.isSpace with
    | false =>
      obtain ⟨x, more, hx, hblank, hl⟩ := h.head_of_not_space hspace
      rw [withoutComments_kept (Or.inl hl)] at htext
      simp only [hx, List.cons_append] at htext hcs
      obtain ⟨rfl, rfl⟩ := hhead htext hblank
      refine ⟨⟨q, l⟩, List.find?_cons_of_pos (by simp [hspace]), by simp [hx], ?_⟩
      rw [← hcs] at hq
      exact hq.eq hblank
    | true =>
      rw [List.find?_cons_of_neg (by simp [hspace])]
      cases l with
      | ordinary d =>
        rw [withoutComments_kept (Or.inl rfl)] at htext
        cases blanks with
        | nil =>
          obtain ⟨rfl, -⟩ := List.cons.inj htext
          rw [Lexeme.isSpace, hc] at hspace
          cases hspace
        | cons b blanks =>
          obtain ⟨rfl, hmore⟩ := List.cons.inj htext
          rw [← hcs] at hq
          have hnext : Aligned (q.next d) (q'.next d) (textOf ls) := hq.next
          obtain ⟨t, ht⟩ := ih h.tail hnext hmore (List.forall_mem_cons.1 hblanks).2
          exact ⟨t, ht⟩
      | comment body =>
        cases h with
        | comment hend h =>
          by_cases hline : q.line < line
          · rw [withoutComments_comment hline] at htext
            exact ih h (hq.comment hend) htext hblanks
          · rw [withoutComments_kept (Or.inr hline)] at htext
            exact absurd (hhead htext (by decide)).2.symm hcomment
      | delimiter | literal | unfinished => cases hspace

/-- Lines end where they did. -/
theorem restOfLine_withoutComments (h : Reads cs ls) (hend : restOfLine cs = []) :
    restOfLine (withoutComments line (tokensFrom q ls)) = [] := by
  rcases cases_of_restOfLine hend with rfl | ⟨rest, rfl⟩ | ⟨rest, rfl⟩
  · cases h
    rfl
  · obtain ⟨ls, rfl, -⟩ := h.ordinary_inv (by decide)
    rw [tokensFrom, withoutComments_kept (Or.inl rfl)]
    exact restOfLine_feed
  · obtain ⟨ls₁, rfl, hfeed⟩ := h.ordinary_inv (by decide)
    obtain ⟨ls₂, rfl, -⟩ := hfeed.ordinary_inv (by decide)
    rw [tokensFrom, withoutComments_kept (Or.inl rfl), tokensFrom,
      withoutComments_kept (Or.inl rfl)]
    exact restOfLine_return_feed

theorem exists_blanks {y typed : List Char} (hy : restOfLine y = []) (hpart : typed <+: y)
    (hfeed : '\n' ∈ typed) :
    ∃ blanks rest, typed = blanks ++ rest ∧ '\n' ∈ blanks ∧ (∀ c ∈ blanks, isBlank c = true) ∧
      ∀ c ∈ rest.head?, isBlank c = false := by
  refine ⟨typed.takeWhile isBlank, typed.dropWhile isBlank, List.takeWhile_append_dropWhile.symm,
    ?_, fun c hc => List.all_eq_true.1 List.all_takeWhile c hc, ?_⟩
  · have hblank : isBlank '\n' = true := by decide
    have hreturn : isBlank '\r' = true := by decide
    obtain ⟨after, rfl⟩ := hpart
    match typed with
    | [] => cases hfeed
    | [c] =>
      obtain rfl := List.mem_singleton.1 hfeed
      simp [hblank]
    | c :: d :: typed =>
      rcases cases_of_restOfLine hy with heq | ⟨rest, heq⟩ | ⟨rest, heq⟩
      · cases heq
      · obtain ⟨rfl, -⟩ := List.cons.inj heq
        simp [hblank]
      · obtain ⟨rfl, hmore⟩ := List.cons.inj heq
        obtain ⟨rfl, -⟩ := List.cons.inj hmore
        simp [hblank, hreturn]
  · intro c hc
    have hnot := List.head?_dropWhile_not isBlank typed
    rw [hc] at hnot
    simpa using hnot

/-- Nothing between such a comment and the cursor binds to what is in front of the comment. -/
theorem Apart.detached {typed : List Char} (hread : Reads cs ls) (hend : EndsLine body cs)
    (h : Apart p front body (tokensFrom (Position.origin.after (front ++ '#' :: body)) ls))
    (hbetween : Between front (withoutComments p.line
      (tokensFrom (Position.origin.after (front ++ '#' :: body)) ls)) p typed) :
    Detached typed := by
  obtain ⟨blanks, rest, rfl, hfeed, hblanks, hrest⟩ :=
    exists_blanks (restOfLine_withoutComments hread hend.rest) hbetween.part hbetween.feed
  refine ⟨blanks, rest, rfl, hfeed, hblanks, fun c hc => ⟨hrest c hc, ?_⟩⟩
  by_cases hcomment : c = '#'
  · rw [hcomment]
    decide
  obtain ⟨more, rfl⟩ := List.head?_eq_some_iff.1 hc
  obtain ⟨after, hafter⟩ := hbetween.part
  rw [List.append_assoc, List.cons_append] at hafter
  have haligned : Aligned (Position.origin.after (front ++ '#' :: body))
      (Position.origin.after front) cs := by
    rw [Position.after_append]
    exact Aligned.comment (Or.inl rfl) hend
  obtain ⟨t, hfind, hhead, hstart⟩ :=
    find_withoutComments hread haligned hafter.symm hblanks (hrest c hc) hcomment
  -- The lexeme starts in front of the cursor, since its first character does.
  have hlt : t.start < p := by
    have hoffset := hbetween.offset
    rw [← hafter, ← List.append_assoc] at hoffset
    rw [hstart, ← Position.after_append]
    apply lt_of_offsetAt hoffset
    have hpos := c.utf8Size_pos
    simp only [byteSize_append, byteSize]
    omega
  exact h.unbound t hfind hlt c hhead

/-- Comments that do not matter can be taken out one by one, the last one first. -/
theorem completionContext_withoutComments (h : Reads cs ls)
    (hapart : ∀ above start body below,
      tokensFrom (Position.origin.after front) ls = above ++ ⟨start, .comment body⟩ :: below →
      start.line < p.line → Apart p (front ++ textOf (above.map Token.lexeme)) body below) :
    completionContext
        (front ++ withoutComments p.line (tokensFrom (Position.origin.after front) ls)) p
      = completionContext (front ++ cs) p := by
  induction ls generalizing cs front with
  | nil =>
    cases h
    rfl
  | cons l ls ih =>
    have hrest : completionContext (front ++ l.text ++ withoutComments p.line
        (tokensFrom (Position.origin.after (front ++ l.text)) ls)) p
          = completionContext (front ++ cs) p := by
      rw [← h.textOf_eq, textOf_cons, ← List.append_assoc]
      apply ih h.tail
      intro above start body below heq hline
      have hwhole := hapart (⟨Position.origin.after front, l⟩ :: above) start body below
        (by rw [tokensFrom, ← Position.after_append, heq]; rfl) hline
      simpa using hwhole
    rw [tokensFrom, ← Position.after_append]
    by_cases hkept : l.isComment = false ∨ ¬ (Position.origin.after front).line < p.line
    · rw [withoutComments_kept hkept, ← List.append_assoc]
      exact hrest
    · obtain ⟨hcomment, hline⟩ := not_or.1 hkept
      rw [Decidable.not_not] at hline
      cases h with
      | ordinary | delimiter | literal | unfinished | unfinishedRaw => exact absurd rfl hcomment
      | @comment body cs _ hend hread =>
        have happart := hapart [] (Position.origin.after front) body _ rfl hline
        rw [List.map_nil, textOf_nil, List.append_nil, ← Position.after_append] at happart
        have hfeed : '\n' ∉ '#' :: body := by simp [hend.notMem]
        have hmute : ∀ c ∈ '#' :: body, isMute c = true :=
          List.forall_mem_cons.2 ⟨by decide, happart.mute⟩
        have huntyped : labelValue front = none := by
          rw [Option.eq_none_iff_forall_ne_some]
          exact fun found hfound => happart.untyped _ _ (labelValue_eq_some_iff.1 hfound)
        rw [withoutComments_comment hline, ← hrest]
        exact (completionContext_comment hfeed hmute huntyped hline
          (restOfLine_withoutComments hread hend.rest) fun _ => happart.detached hread hend).symm

end Removal

/-- Comments above the line of the cursor do not matter, if each of them has no quotes and no
braces, no value is being typed in front of it, and neither a brace nor an operator nor a double
quote is the next thing behind it. -/
theorem comments_do_not_matter {content : List Char} {p : Position} {ls : List Lexeme}
    (h : Reads content ls)
    (hapart : ∀ above start body below, tokensOf ls = above ++ ⟨start, .comment body⟩ :: below →
      start.line < p.line → Apart p (textOf (above.map Token.lexeme)) body below) :
    completionContext (withoutComments p.line (tokensOf ls)) p = completionContext content p :=
  @completionContext_withoutComments p ls content [] h hapart

/-- A comment between a metric and an operator. -/
theorem comments_do_not_matter_operator :
    completionContext ['u', 'p', ' ', '\n', '/', 'a', '{'] ⟨1, 3⟩
      = completionContext ['u', 'p', ' ', '#', '(', '\n', '/', 'a', '{'] ⟨1, 3⟩ := by
  have hread : Reads ['u', 'p', ' ', '#', '(', '\n', '/', 'a', '{']
      [.ordinary 'u', .ordinary 'p', .ordinary ' ', .comment ['('], .ordinary '\n', .ordinary '/',
        .ordinary 'a', .delimiter '{'] := by
    have hend : EndsLine ['('] ['\n', '/', 'a', '{'] := by
      unfold EndsLine
      decide
    have hbelow := Reads.ordinary (c := '\n') rfl (.ordinary (c := '/') rfl
      (.ordinary (c := 'a') rfl (.delimiter (c := '{') rfl .nil)))
    exact .ordinary rfl (.ordinary rfl (.ordinary rfl (.comment hend hbelow)))
  refine comments_do_not_matter hread ?_
  intro above start body below heq _
  match above with
  | [] => cases heq
  | [_] => cases heq
  | [_, _] => cases heq
  | [_, _, _] =>
    cases heq
    refine ⟨List.forall_mem_singleton.2 rfl, fun label typed hends => ?_, fun t ht _ c hc => ?_⟩
    · cases labelValue_eq_some_iff.2 hends
    · cases ht
      cases hc
      decide
  | _ :: _ :: _ :: t :: above =>
    have hmem : (⟨start, .comment body⟩ : Token) ∈ (tokensOf [.ordinary 'u', .ordinary 'p',
        .ordinary ' ', .comment ['('], .ordinary '\n', .ordinary '/', .ordinary 'a',
        .delimiter '{']).drop 4 := by
      rw [heq]
      simp
    simp [tokensOf, tokensFrom] at hmem

/-- An apostrophe in a comment starts a string for the search, which then misses the open brace. -/
theorem comment_starts_string :
    Reads ('#' :: (" don't".toList ++ ['\n', 'u', 'p', '{']))
      [.comment " don't".toList, .ordinary '\n', .ordinary 'u', .ordinary 'p', .delimiter '{'] ∧
    withoutComments 1 (tokensOf [.comment " don't".toList, .ordinary '\n', .ordinary 'u',
      .ordinary 'p', .delimiter '{']) = ['\n', 'u', 'p', '{'] ∧
    completionContext ['\n', 'u', 'p', '{'] ⟨1, 3⟩ = some (.labelName (some "up") "") ∧
    completionContext ('#' :: (" don't".toList ++ ['\n', 'u', 'p', '{'])) ⟨1, 3⟩
      = some (.metricName "") := by
  refine ⟨?_, by decide, by decide, by decide⟩
  have hend : EndsLine " don't".toList ['\n', 'u', 'p', '{'] := by
    unfold EndsLine
    decide
  exact .comment hend (.ordinary rfl (.ordinary rfl (.ordinary rfl (.delimiter rfl .nil))))

end PromqlServer.Query
