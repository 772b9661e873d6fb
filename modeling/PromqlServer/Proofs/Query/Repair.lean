import PromqlServer.Proofs.Query.Findings

/-!
What becomes of a text when the delimiters that the syntax checker reports are taken out of it:
those that are left are properly nested, and its strings are as before (`repair_clears_delimiters`).
-/

namespace PromqlServer.Query

open PromqlServer.Text

/-! ## Taking characters out -/

/-- The text from `p` on, without the characters that start at one of the places. -/
def without (places : List Position) : Position → List Char → List Char
  | _, [] => []
  | p, c :: cs =>
    if p ∈ places then without places (p.next c) cs else c :: without places (p.next c) cs

/-- Where delimiters are at fault. -/
def faultyPlaces (found : List Finding) : List Position :=
  (found.filter fun f => f.fault.isDelimiter).map Finding.start

/-- The lexemes from `p` on, without the delimiters that stand at one of the places. -/
def pruned (places : List Position) : Position → List Lexeme → List Lexeme
  | _, [] => []
  | p, l :: ls =>
    if l.delimiter?.isSome && p ∈ places then pruned places (p.after l.text) ls
    else l :: pruned places (p.after l.text) ls

section Texts

variable {places : List Position} {p q : Position} {cs text : List Char} {l : Lexeme}
  {ls : List Lexeme}

theorem mem_faultyPlaces {found : List Finding} :
    q ∈ faultyPlaces found ↔ ∃ f ∈ found, f.fault.isDelimiter = true ∧ f.start = q := by
  simp [faultyPlaces, and_assoc]

/-- A text stays if all places are in front of it or behind. -/
theorem without_append (h : ∀ q ∈ places, q < p ∨ p.after text ≤ q) :
    without places p (text ++ cs) = text ++ without places (p.after text) cs := by
  induction text generalizing p with
  | nil => rfl
  | cons c text ih =>
    have hp : p ∉ places := by
      intro hmem
      rcases h p hmem with hlt | hle
      · exact lt_irrefl _ hlt
      · exact lt_irrefl _ (lt_of_lt_of_le (Position.lt_after (List.cons_ne_nil c text)) hle)
    have hrest : ∀ q ∈ places, q < p.next c ∨ (p.next c).after text ≤ q := fun q hq =>
      (h q hq).imp_left fun hlt => lt_trans hlt Position.lt_next
    rw [List.cons_append, without, if_neg hp, ih hrest]
    rfl

/-- Places that are taken out of the lexemes from `p` on are those of delimiters. -/
def AtDelimiters (places : List Position) (p : Position) (ls : List Lexeme) : Prop :=
  ∀ q ∈ places, q < p ∨ ∃ c, ⟨q, .delimiter c⟩ ∈ tokensFrom p ls

theorem AtDelimiters.tail (h : AtDelimiters places p (l :: ls)) :
    AtDelimiters places (p.after l.text) ls := by
  intro q hq
  rcases h q hq with hlt | ⟨c, hc⟩
  · exact Or.inl (lt_trans hlt lt_after_text)
  · rcases List.mem_cons.1 hc with heq | hc
    · cases heq
      exact Or.inl lt_after_text
    · exact Or.inr ⟨c, hc⟩

theorem AtDelimiters.apart (h : AtDelimiters places p (l :: ls)) (hl : l.delimiter? = none) :
    ∀ q ∈ places, q < p ∨ p.after l.text ≤ q := by
  intro q hq
  rcases h q hq with hlt | ⟨c, hc⟩
  · exact Or.inl hlt
  · rcases List.mem_cons.1 hc with heq | hc
    · cases heq
      cases hl
    · exact Or.inr (le_of_mem_tokensFrom hc)

/-- Taking delimiters out of a text takes them out of its lexemes. -/
theorem without_textOf (h : AtDelimiters places p ls) :
    without places p (textOf ls) = textOf (pruned places p ls) := by
  induction ls generalizing p with
  | nil => rfl
  | cons l ls ih =>
    rw [pruned, textOf_cons]
    cases hl : l.delimiter? with
    | none =>
      rw [without_append (h.apart hl), ih h.tail]
      simp
    | some c =>
      obtain rfl := l.eq_delimiter hl
      show without places p (c :: textOf ls) = _
      rw [without, show without places (p.next c) (textOf ls) = _ from ih h.tail]
      by_cases hp : p ∈ places
      · simp [hp, Lexeme.text]
      · simp [hp, Lexeme.text]

theorem pruned_of_none (hl : l.delimiter? = none) :
    pruned places p (l :: ls) = l :: pruned places (p.after l.text) ls := by
  simp [pruned, hl]

/-- Lines end where they did. -/
theorem endsLine_pruned {body : List Char} (hend : EndsLine body cs) (h : Reads cs ls) :
    EndsLine body (textOf (pruned places p ls)) := by
  rcases cases_of_restOfLine hend.rest with rfl | ⟨rest, rfl⟩ | ⟨rest, rfl⟩
  · cases h
    exact hend
  · obtain ⟨ls, rfl, -⟩ := h.ordinary_inv (by decide)
    rw [pruned_of_none rfl]
    exact hend.congr restOfLine_feed fun _ => rfl
  · obtain ⟨ls₁, rfl, hfeed⟩ := h.ordinary_inv (by decide)
    obtain ⟨ls₂, rfl, -⟩ := hfeed.ordinary_inv (by decide)
    rw [pruned_of_none rfl, pruned_of_none rfl]
    apply hend.congr restOfLine_return_feed
    intro hhead
    cases hhead

/-- Without some of the delimiters the other lexemes are what they were. -/
theorem Reads.without_delimiters (h : Reads cs ls) :
    Reads (textOf (pruned places p ls)) (pruned places p ls) := by
  induction h generalizing p with
  | nil => exact .nil
  | ordinary hc _ ih =>
    rw [pruned_of_none rfl]
    exact .ordinary hc ih
  | @delimiter c cs ls hc _ ih =>
    rw [pruned]
    split
    · exact ih
    · exact .delimiter hc ih
  | comment hend h ih =>
    rw [pruned_of_none rfl]
    exact .comment (endsLine_pruned hend h) ih
  | @literal quote body cs ls hq hbody _ ih =>
    rw [pruned_of_none rfl, textOf_cons]
    have htext : (Lexeme.literal quote body).text
        ++ textOf (pruned places (p.after (Lexeme.literal quote body).text) ls)
        = quote :: (body ++ quote :: textOf
          (pruned places (p.after (Lexeme.literal quote body).text) ls)) := by
      simp [Lexeme.text]
    rw [htext]
    exact .literal hq hbody ih
  | unfinished hq hraw hbody hend h ih =>
    rw [pruned_of_none rfl]
    exact .unfinished hq hraw hbody (endsLine_pruned hend h) ih
  | unfinishedRaw hraw hbody =>
    rw [pruned_of_none rfl]
    show Reads (_ :: (_ ++ [])) _
    rw [List.append_nil]
    exact .unfinishedRaw hraw hbody

end Texts

/-! ## What the end of a scan says of its lexemes -/

/-- A scan that has come to `p` ends as `final` with the lexemes from there on. -/
structure Leads (p : Position) (ls : List Lexeme) (s final : Scan) : Prop where
  ordered : Ordered p s
  proper : ∀ l ∈ ls, l.Proper
  ends : scanTokens (tokensFrom p ls) s = final

section Endings

variable {p : Position} {c : Char} {l : Lexeme} {ls : List Lexeme} {s s₁ final : Scan} {m : Mark}
  {f : Finding}

theorem Leads.noted (h : Leads p (l :: ls) s final) : Noted ⟨p, l⟩ s (Token.scan ⟨p, l⟩ s) :=
  Token.noted (h.proper l List.mem_cons_self) s

theorem Leads.tail (h : Leads p (l :: ls) s final) :
    Leads (p.after l.text) ls (Token.scan ⟨p, l⟩ s) final where
  ordered := h.ordered.step h.noted lt_after_text
  proper := (List.forall_mem_cons.1 h.proper).2
  ends := h.ends

theorem Leads.found_subset (h : Leads p ls s final) : s.found ⊆ final.found := by
  rw [← h.ends]
  exact (scanTokens_kept (tokensFrom_proper h.proper)).1

/-- What the end reports of the text before `p` is known at `p`. -/
theorem Leads.known (h : Leads p ls s final) (hf : f ∈ final.findings) (hlt : f.start < p) :
    f ∈ s.findings := by
  rw [← h.ends] at hf
  refine (findings_reported (tokensFrom_proper h.proper) hf).resolve_right ?_
  rintro ⟨t, ht, hreported⟩
  rw [hreported.start_eq] at hlt
  exact lt_irrefl _ (lt_of_lt_of_le hlt (le_of_mem_tokensFrom ht))

theorem Leads.open_known (h : Leads p ls s final) (hm : m ∈ final.delimiters)
    (hlt : m.start < p) : m ∈ s.delimiters := by
  have hf : ⟨m.start, 1, .unclosed m.char⟩ ∈ final.findings :=
    Scan.mem_findings.2 (Or.inr (Or.inr ⟨m, hm, rfl⟩))
  exact h.ordered.unclosed_open (h.known hf hlt)

/-- A delimiter that is at fault in the end is so as soon as it is read. -/
theorem Leads.reported_here (h : Leads (p.after l.text) ls s₁ final) (ho : Ordered p s)
    (hnoted : Noted ⟨p, l⟩ s s₁) (hp : p ∈ faultyPlaces final.findings) :
    ∃ f ∈ final.findings, f ∈ s₁.findings ∧ Reported ⟨p, l⟩ f := by
  obtain ⟨f, hf, hdelimiter, rfl⟩ := mem_faultyPlaces.1 hp
  have hknown := h.known hf lt_after_text
  refine ⟨f, hf, hknown, (hnoted.reported hknown).resolve_left ?_⟩
  exact fun hold => lt_irrefl _ (ho.start_lt hold hdelimiter)

theorem Leads.opener_faulty_iff (h : Leads p (.delimiter c :: ls) s final)
    (hc : isOpener c = true) :
    p ∈ faultyPlaces final.findings ↔ ⟨c, p⟩ ∈ final.delimiters := by
  constructor
  · intro hp
    obtain ⟨f, hf, -, hreported⟩ := h.tail.reported_here h.ordered h.noted hp
    rcases hreported.of_delimiter rfl with ⟨-, rfl⟩ | ⟨hcloser, -⟩
    · obtain ⟨_, hfinal⟩ := h.ordered.run h.proper
      rw [h.ends] at hfinal
      exact hfinal.unclosed_open hf
    · rw [not_isCloser_of_isOpener hc] at hcloser
      cases hcloser
  · intro hopen
    refine mem_faultyPlaces.2 ⟨⟨p, 1, .unclosed c⟩, ?_, rfl, rfl⟩
    exact Scan.mem_findings.2 (Or.inr (Or.inr ⟨_, hopen, rfl⟩))

/-- A closer that fits is not at fault. -/
theorem Leads.closer_spared {rest : List Mark} (ho : Ordered p s) (hc : isCloser c = true)
    (hnoted : Noted ⟨p, .delimiter c⟩ s { s with delimiters := rest })
    (h : Leads (p.after (Lexeme.delimiter c).text) ls { s with delimiters := rest } final) :
    p ∉ faultyPlaces final.findings := by
  intro hp
  obtain ⟨f, -, hknown, hreported⟩ := h.reported_here ho hnoted hp
  rcases hreported.of_delimiter rfl with ⟨hopener, -⟩ | ⟨-, expected, rfl⟩
  · rw [not_isOpener_of_isCloser hc] at hopener
    cases hopener
  · have hfound := unexpected_found hknown
    exact lt_irrefl _ (ho.found_lt _ hfound)

/-- An opener that is closed is not left open. -/
theorem Leads.opener_spared {rest : List Mark} (ho : Ordered p s)
    (hstack : s.delimiters = m :: rest)
    (h : Leads (p.after l.text) ls { s with delimiters := rest } final) :
    m ∉ final.delimiters := by
  intro hopen
  have hlt : m.start < p := ho.delimiters_lt m (by simp [hstack])
  have hrest : m ∈ rest := h.open_known hopen (lt_trans hlt lt_after_text)
  have hsorted := ho.delimiters
  rw [hstack, List.pairwise_cons] at hsorted
  exact lt_irrefl _ (hsorted.1 m hrest)

end Endings

/-! ## The scan of what is left -/

/-- What is at fault, and on which line. -/
def Finding.onLine (f : Finding) : Fault × Nat := (f.fault, f.start.line)

/-- The scan without the faulty delimiters, as `s'`, goes along with the scan `s` of the whole
text: the delimiters that will never be closed are not there. -/
structure Follows (final s s' : Scan) : Prop where
  literal : s'.literal.map (fun m => m.start.line) = s.literal.map fun m => m.start.line
  found : s'.found.map Finding.onLine
    = (s.found.filter fun f => !f.fault.isDelimiter).map Finding.onLine
  delimiters : s'.delimiters.map Mark.char
    = (s.delimiters.filter fun m => m ∉ final.delimiters).map Mark.char

section Following

variable {p p' : Position} {l : Lexeme} {ls : List Lexeme} {s s' final : Scan}

/-- A delimiter that is taken out leaves no trace. -/
theorem Follows.skip (h : Follows final s s') (hleads : Leads p (l :: ls) s final)
    (hl : l.delimiter?.isSome = true) (hp : p ∈ faultyPlaces final.findings) :
    Follows final (Token.scan ⟨p, l⟩ s) s' := by
  have hnoted := hleads.noted
  have htail := hleads.tail
  generalize Token.scan ⟨p, l⟩ s = s₁ at hnoted htail ⊢
  cases hnoted with
  | silent hdelimiter =>
    rw [show l.delimiter? = none from hdelimiter] at hl
    cases hl
  | @opened c hc hopener =>
    obtain rfl : l = .delimiter c := hc
    have hopen := (hleads.opener_faulty_iff hopener).1 hp
    exact { h with delimiters := by rw [h.delimiters]; simp [hopen] }
  | @closed c m rest hc hcloser hstack hfits =>
    obtain rfl : l = .delimiter c := hc
    have hnoted := Noted.closed (t := ⟨p, .delimiter c⟩) rfl hcloser hstack hfits
    exact absurd hp (htail.closer_spared hleads.ordered hcloser hnoted)
  | stray => exact { h with found := by rw [h.found]; simp [Scan.report, Fault.isDelimiter] }
  | cutOff hc | leftOpen hc =>
    obtain rfl : l = .unfinished _ _ := hc
    cases hl

/-- Of everything else both take the same note. -/
theorem Follows.step (h : Follows final s s') (hleads : Leads p (l :: ls) s final)
    (hkept : ¬ (l.delimiter?.isSome = true ∧ p ∈ faultyPlaces final.findings))
    (hline : p'.line = p.line) :
    Follows final (Token.scan ⟨p, l⟩ s) (Token.scan ⟨p', l⟩ s') := by
  have hnoted := hleads.noted
  have htail := hleads.tail
  generalize Token.scan ⟨p, l⟩ s = s₁ at hnoted htail ⊢
  cases hnoted with
  | silent hdelimiter hcomplete =>
    rw [Token.scan_silent hdelimiter hcomplete]
    exact h
  | @opened c hc hopener =>
    obtain rfl : l = .delimiter c := hc
    have hclosed : ⟨c, p⟩ ∉ final.delimiters :=
      fun hopen => hkept ⟨rfl, (hleads.opener_faulty_iff hopener).2 hopen⟩
    rw [Token.scan_opener hopener]
    exact { h with delimiters := by simp [hclosed, h.delimiters] }
  | @closed c m rest hc hcloser hstack hfits =>
    obtain rfl : l = .delimiter c := hc
    have hclosed := htail.opener_spared hleads.ordered hstack
    -- The opener is on the other stack as well, and there it is the innermost one.
    have hboth := h.delimiters
    rw [hstack, List.filter_cons_of_pos (by simpa using hclosed), List.map_cons] at hboth
    obtain ⟨m', rest', hstack', hchar, hrest⟩ := List.map_eq_cons_iff.1 hboth
    rw [Token.scan_closer hcloser, Scan.close_fitting hstack' (by rw [hchar, hfits])]
    exact { h with delimiters := hrest }
  | @stray c hc =>
    obtain rfl : l = .delimiter c := hc
    have hp : p ∈ faultyPlaces final.findings := by
      have hfound := htail.found_subset List.mem_cons_self
      exact mem_faultyPlaces.2 ⟨_, Scan.mem_findings.2 (Or.inl hfound), rfl, rfl⟩
    exact absurd ⟨rfl, hp⟩ hkept
  | @cutOff quote body hc hraw =>
    obtain rfl : l = .unfinished quote body := hc
    have hscan : Token.scan ⟨p', .unfinished quote body⟩ s'
        = s'.report ⟨p', width (quote :: body), .unterminated⟩ := by simp [Token.scan, hraw]
    rw [hscan]
    exact { h with
      found := by simp [Scan.report, Fault.isDelimiter, Finding.onLine, hline, h.found] }
  | @leftOpen quote body hc hraw =>
    obtain rfl : l = .unfinished quote body := hc
    have hscan : Token.scan ⟨p', .unfinished quote body⟩ s'
        = { s' with literal := some ⟨quote, p'⟩ } := by simp [Token.scan, hraw]
    rw [hscan]
    exact { h with literal := by simp [hline] }

theorem Follows.run (h : Follows final s s') (hleads : Leads p ls s final)
    (hline : p'.line = p.line) :
    Follows final final
      (scanTokens (tokensFrom p' (pruned (faultyPlaces final.findings) p ls)) s') := by
  -- What was taken out moves `p'` along its line, but never to another one.
  induction ls generalizing p p' s s' with
  | nil =>
    have hends : s = final := hleads.ends
    exact hends ▸ h
  | cons l ls ih =>
    rw [pruned]
    split
    · rename_i hpruned
      rw [Bool.and_eq_true, decide_eq_true_eq] at hpruned
      obtain ⟨hl, hp⟩ := hpruned
      refine ih (h.skip hleads hl hp) hleads.tail ?_
      obtain ⟨c, hc⟩ := Option.isSome_iff_exists.1 hl
      obtain rfl := l.eq_delimiter hc
      have hfeed : c ≠ '\n' :=
        ne_of_isDelimiter (hleads.proper _ List.mem_cons_self c rfl) (by decide)
      rw [hline]
      show p.line = (p.next c).line
      rw [Position.next_of_ne hfeed]
    · rename_i hkept
      rw [Bool.and_eq_true, decide_eq_true_eq] at hkept
      exact ih (h.step hleads hkept hline) hleads.tail (Position.after_line_congr hline)

/-- Delimiters aside, there is what was found on the way and the raw string that is left open. -/
theorem Scan.findings_filter (s : Scan) :
    (s.findings.filter fun f => !f.fault.isDelimiter)
      = (s.found.filter fun f => !f.fault.isDelimiter).reverse
        ++ s.literal.toList.map fun m => ⟨m.start, 1, .unterminatedRaw⟩ := by
  have hraw : ∀ ms : List Mark,
      ((ms.map fun m => (⟨m.start, 1, .unterminatedRaw⟩ : Finding)).filter
        fun f => !f.fault.isDelimiter) = ms.map fun m => ⟨m.start, 1, .unterminatedRaw⟩ := by
    intro ms
    rw [List.filter_eq_self, List.forall_mem_map]
    exact fun _ _ => rfl
  have hunclosed : ∀ ms : List Mark,
      ((ms.map fun m => (⟨m.start, 1, .unclosed m.char⟩ : Finding)).filter
        fun f => !f.fault.isDelimiter) = [] := by
    intro ms
    rw [List.filter_eq_nil_iff, List.forall_mem_map]
    exact fun _ _ => Bool.false_ne_true
  rw [Scan.findings, List.filter_append, List.filter_append, hraw, hunclosed, List.filter_reverse,
    List.append_nil]

/-- In the end no delimiter is left to report. -/
theorem Follows.findings (h : Follows final final s') :
    s'.findings.map Finding.onLine
      = (final.findings.filter fun f => !f.fault.isDelimiter).map Finding.onLine := by
  have hnone : s'.delimiters = [] := by
    apply List.map_eq_nil_iff.1
    rw [h.delimiters, List.map_eq_nil_iff, List.filter_eq_nil_iff]
    intro m hm
    simpa using hm
  have hraw : (s'.literal.toList.map fun m => (Fault.unterminatedRaw, m.start.line))
      = final.literal.toList.map fun m => (Fault.unterminatedRaw, m.start.line) := by
    have hpaired := congrArg (fun line => line.toList.map (Prod.mk Fault.unterminatedRaw)) h.literal
    simpa [Option.toList_map, Function.comp_def] using hpaired
  rw [Scan.findings_filter, Scan.findings, hnone, List.reverse_nil, List.map_nil, List.append_nil,
    List.map_append, List.map_append, List.map_reverse, List.map_reverse, h.found, List.map_map,
    List.map_map]
  exact congrArg _ hraw

end Following

/-! ## The text without its faulty delimiters -/

section Repairs

variable {cs : List Char} {ls : List Lexeme}

/-- Where a delimiter is at fault there is one. -/
theorem Reads.atDelimiters (h : Reads cs ls) :
    AtDelimiters (faultyPlaces (check cs)) Position.origin ls := by
  intro q hq
  obtain ⟨f, hf, hdelimiter, rfl⟩ := mem_faultyPlaces.1 hq
  obtain ⟨⟨start, lexeme⟩, ht, hreported⟩ := h.reported hf
  obtain ⟨c, hc⟩ := hreported.delimiter_of_fault hdelimiter
  obtain rfl : lexeme = .delimiter c := hc
  rw [hreported.start_eq]
  exact Or.inr ⟨c, ht⟩

theorem Reads.check_without (h : Reads cs ls) :
    (check (without (faultyPlaces (check cs)) Position.origin cs)).map Finding.onLine
      = ((check cs).filter fun f => !f.fault.isDelimiter).map Finding.onLine := by
  have htext : without (faultyPlaces (check cs)) Position.origin cs
      = textOf (pruned (faultyPlaces (check cs)) Position.origin ls) := by
    rw [← without_textOf h.atDelimiters, h.textOf_eq]
  have hleads : Leads Position.origin ls Scan.empty (scanTokens (tokensOf ls) Scan.empty) :=
    ⟨ordered_empty, h.proper, rfl⟩
  have hstart : Follows (scanTokens (tokensOf ls) Scan.empty) Scan.empty Scan.empty :=
    ⟨rfl, rfl, rfl⟩
  rw [htext, h.without_delimiters.check_eq, h.check_eq]
  exact (hstart.run hleads rfl).findings

end Repairs

/-- If the delimiters that are reported are taken out of a text, then no delimiter is reported any
more, and of the strings the same faults are, on the same lines. -/
theorem repair_clears_delimiters (content : String) :
    ∃ found left : List Finding,
      diagnostics (fun _ => false) content = .ok (found.map Finding.toDiagnostic) ∧
      diagnostics (fun _ => false)
          (String.ofList (without (faultyPlaces found) Position.origin content.toList))
        = .ok (left.map Finding.toDiagnostic) ∧
      (∀ f ∈ left, f.fault.isDelimiter = false) ∧
      left.map Finding.onLine
        = (found.filter fun f => !f.fault.isDelimiter).map Finding.onLine := by
  obtain ⟨lexemes, h⟩ := exists_reads content.toList
  have hsame := h.check_without
  refine ⟨check content.toList, _, diagnostics_eq_ok content, diagnostics_eq_ok _, ?_, ?_⟩
  · intro f hf
    rw [String.toList_ofList] at hf
    obtain ⟨g, hg, heq⟩ := List.mem_map.1 (hsame ▸ List.mem_map_of_mem hf)
    have hfault : g.fault = f.fault := congrArg Prod.fst heq
    simpa [hfault] using (List.mem_filter.1 hg).2
  · rw [String.toList_ofList]
    exact hsame

example : without (faultyPlaces (check ['(', ']', 'x', ')', '['])) Position.origin
    ['(', ']', 'x', ')', '['] = ['(', 'x', ')'] := by decide

end PromqlServer.Query
