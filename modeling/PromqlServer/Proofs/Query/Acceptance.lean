import PromqlServer.Proofs.Query.Scans

/-!
The texts in which the syntax checker finds nothing: their strings are closed, and their delimiters
are properly nested.
-/

namespace PromqlServer.Query

open PromqlServer.Text

/-- Properly nested delimiters. -/
inductive Nested : List Char → Prop
  | nil : Nested []
  | wrap {opener : Char} {inner rest : List Char} : isOpener opener = true → Nested inner →
      Nested rest → Nested (opener :: (inner ++ closerOf opener :: rest))

/-- The delimiters outside of strings and comments. -/
def delimiterWord (ls : List Lexeme) : List Char := ls.filterMap Lexeme.delimiter?

/-! ## Words and open delimiters -/

/-- A word that closes the open delimiters, the innermost first, and all that it opens itself. -/
inductive Closes : List Char → List Char → Prop
  | done : Closes [] []
  | opener {c : Char} {stack word : List Char} : isOpener c = true → Closes (c :: stack) word →
      Closes stack (c :: word)
  | closer {c : Char} {stack word : List Char} : Closes stack word →
      Closes (c :: stack) (closerOf c :: word)

section Words

variable {c o : Char} {stack word rest : List Char}

theorem Closes.opener_inv (hc : isOpener c = true) (h : Closes stack (c :: word)) :
    Closes (c :: stack) word := by
  generalize hall : c :: word = all at h
  cases h with
  | done => cases hall
  | opener _ h => cases hall; exact h
  | @closer o =>
    have hcloser := isCloser_closerOf o
    rw [← (List.cons.inj hall).1, not_isCloser_of_isOpener hc] at hcloser
    cases hcloser

theorem Closes.closer_inv (hc : isCloser c = true) (h : Closes stack (c :: word)) :
    ∃ o rest, stack = o :: rest ∧ closerOf o = c ∧ Closes rest word := by
  generalize hall : c :: word = all at h
  cases h with
  | done => cases hall
  | opener ho =>
    rw [← (List.cons.inj hall).1] at ho
    rw [not_isCloser_of_isOpener ho] at hc
    cases hc
  | closer h =>
    obtain ⟨rfl, rfl⟩ := List.cons.inj hall
    exact ⟨_, _, rfl, rfl, h⟩

/-- A nested word in front changes nothing. -/
theorem Nested.closes_append (h : Nested word) (hrest : Closes stack rest) :
    Closes stack (word ++ rest) := by
  induction h generalizing stack rest with
  | nil => exact hrest
  | wrap ho _ _ ihInner ihRest =>
    rw [List.cons_append, List.append_assoc, List.cons_append]
    exact .opener ho (ihInner (.closer (ihRest hrest)))

/-- A word that closes open delimiters is made up of nested words with the closers between. -/
def Unwinds : List Char → List Char → Prop
  | [], word => Nested word
  | o :: stack, word => ∃ inner rest, word = inner ++ closerOf o :: rest ∧ Nested inner ∧
      Unwinds stack rest

theorem Unwinds.opener (hc : isOpener c = true) (h : Unwinds (c :: stack) word) :
    Unwinds stack (c :: word) := by
  obtain ⟨inner, rest, rfl, hinner, hrest⟩ := h
  cases stack with
  | nil => exact .wrap hc hinner hrest
  | cons o stack =>
    obtain ⟨inner', rest', rfl, hinner', hrest'⟩ := hrest
    exact ⟨c :: (inner ++ closerOf c :: inner'), rest', by simp, .wrap hc hinner hinner', hrest'⟩

theorem Closes.unwinds (h : Closes stack word) : Unwinds stack word := by
  induction h with
  | done => exact .nil
  | opener hc _ ih => exact ih.opener hc
  | closer _ ih => exact ⟨[], _, rfl, .nil, ih⟩

theorem closes_nil_iff : Closes [] word ↔ Nested word := by
  constructor
  · exact fun h => h.unwinds
  · intro h
    have hclosed := h.closes_append .done
    rwa [List.append_nil] at hclosed

end Words

/-! ## The scan of a word -/

section Scanning

variable {s : Scan} {p : Position}

theorem Scan.findings_eq_nil :
    s.findings = [] ↔ s.found = [] ∧ s.literal = none ∧ s.delimiters = [] := by
  simp [Scan.findings]

theorem scanTokens_found_nothing {ts : List Token} (h : ∀ t ∈ ts, t.lexeme.Proper)
    (hfindings : (scanTokens ts s).findings = []) : s.found = [] ∧ s.literal = none := by
  obtain ⟨hfound, hliteral, -⟩ := Scan.findings_eq_nil.1 hfindings
  obtain ⟨hkept, hkept'⟩ := scanTokens_kept (s := s) h
  rw [hfound] at hkept
  exact ⟨List.subset_nil.1 hkept, hkept' hliteral⟩

theorem closes_nil_right {stack : List Char} : Closes stack [] ↔ stack = [] := by
  constructor
  · intro h
    cases h
    rfl
  · rintro rfl
    exact .done

/-- The check finds nothing from some point on exactly if no string is cut off there and the
delimiters close those that are open. -/
theorem findings_eq_nil_iff {ls : List Lexeme} (hls : ∀ l ∈ ls, l.Proper) (hfound : s.found = [])
    (hliteral : s.literal = none) :
    (scanTokens (tokensFrom p ls) s).findings = [] ↔
      (∀ l ∈ ls, l.isComplete = true) ∧ Closes (s.delimiters.map Mark.char) (delimiterWord ls) := by
  induction ls generalizing p s with
  | nil =>
    have hword : delimiterWord [] = [] := rfl
    simp [tokensFrom, Scan.findings_eq_nil, hfound, hliteral, hword, closes_nil_right]
  | cons l ls ih =>
    obtain ⟨hl, hbehind⟩ := List.forall_mem_cons.1 hls
    have hproper : ∀ t ∈ tokensFrom (p.after l.text) ls, t.lexeme.Proper :=
      tokensFrom_proper hbehind
    have hnoted := Token.noted (t := ⟨p, l⟩) hl s
    rw [tokensFrom, scanTokens_cons, List.forall_mem_cons]
    -- What is found is never taken back, so a lexeme at fault settles both sides.
    generalize Token.scan ⟨p, l⟩ s = s' at hnoted ⊢
    cases hnoted with
    | silent hdelimiter hcomplete =>
      have hword : delimiterWord (l :: ls) = delimiterWord ls :=
        List.filterMap_cons_none hdelimiter
      have hcomplete : l.isComplete = true := hcomplete
      rw [ih hbehind hfound hliteral, hword]
      simp [hcomplete]
    | @opened c hc hopener =>
      obtain rfl : l = .delimiter c := hc
      have hword : delimiterWord (.delimiter c :: ls) = c :: delimiterWord ls := rfl
      rw [ih hbehind (by exact hfound) (by exact hliteral), hword]
      constructor
      · rintro ⟨hcomplete, hcloses⟩
        exact ⟨⟨rfl, hcomplete⟩, .opener hopener hcloses⟩
      · rintro ⟨⟨-, hcomplete⟩, hcloses⟩
        exact ⟨hcomplete, hcloses.opener_inv hopener⟩
    | @closed c m rest hc hcloser hstack hfits =>
      obtain rfl : l = .delimiter c := hc
      have hword : delimiterWord (.delimiter c :: ls) = c :: delimiterWord ls := rfl
      rw [ih hbehind (by exact hfound) (by exact hliteral), hword, hstack, List.map_cons]
      constructor
      · rintro ⟨hcomplete, hcloses⟩
        exact ⟨⟨rfl, hcomplete⟩, hfits ▸ .closer hcloses⟩
      · rintro ⟨⟨-, hcomplete⟩, hcloses⟩
        obtain ⟨o, below, heq, -, hrest⟩ := hcloses.closer_inv hcloser
        rw [(List.cons.inj heq).2]
        exact ⟨hcomplete, hrest⟩
    | @stray c hc hcloser hmisfits =>
      obtain rfl : l = .delimiter c := hc
      constructor
      · intro hnil
        exact absurd (scanTokens_found_nothing hproper hnil).1 (List.cons_ne_nil _ _)
      · rintro ⟨-, hcloses⟩
        obtain ⟨o, below, heq, hfits, -⟩ := Closes.closer_inv hcloser hcloses
        obtain ⟨m, rest, hstack, rfl, -⟩ := List.map_eq_cons_iff.1 heq
        exact absurd hfits (hmisfits m (by rw [hstack]; rfl))
    | @cutOff quote body hl' =>
      obtain rfl : l = .unfinished quote body := hl'
      constructor
      · intro hnil
        exact absurd (scanTokens_found_nothing hproper hnil).1 (List.cons_ne_nil _ _)
      · rintro ⟨⟨hcomplete, -⟩, -⟩
        cases hcomplete
    | @leftOpen quote body hl' =>
      obtain rfl : l = .unfinished quote body := hl'
      constructor
      · intro hnil
        exact absurd (scanTokens_found_nothing hproper hnil).2 (Option.some_ne_none _)
      · rintro ⟨⟨hcomplete, -⟩, -⟩
        cases hcomplete

end Scanning

/-- Without cancellation the check has nothing to say about a text exactly if it reads as ordinary
characters, comments, complete strings and delimiters, and the delimiters are properly nested. -/
theorem accepts_iff_nested (content : String) :
    diagnostics (fun _ => false) content = .ok [] ↔
      ∃ lexemes, Reads content.toList lexemes ∧ (∀ l ∈ lexemes, l.isComplete = true) ∧
        Nested (delimiterWord lexemes) := by
  have hread : ∀ lexemes, Reads content.toList lexemes →
      (diagnostics (fun _ => false) content = .ok [] ↔
        (∀ l ∈ lexemes, l.isComplete = true) ∧ Nested (delimiterWord lexemes)) := by
    intro lexemes h
    rw [diagnostics_eq_ok, Except.ok.injEq, faults, List.map_eq_nil_iff, h.check_eq,
      findings_eq_nil_iff h.proper rfl rfl]
    exact and_congr_right fun _ => closes_nil_iff
  constructor
  · intro hnil
    obtain ⟨lexemes, h⟩ := exists_reads content.toList
    exact ⟨lexemes, h, (hread lexemes h).1 hnil⟩
  · rintro ⟨lexemes, h, haccepted⟩
    exact (hread lexemes h).2 haccepted

end PromqlServer.Query
