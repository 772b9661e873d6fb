import Mathlib.Data.List.Nodup
import PromqlServer.Proofs.Query.Scans

/-!
What the syntax checker finds, and where. Every finding belongs to a lexeme and starts where it does
(`findings_reported`); what is met on the way is found in the order of the text.
-/

namespace PromqlServer.Query

open PromqlServer.Text

/-! ## Lexemes in the order of the text -/

section Tokens

variable {p : Position} {t t' : Token} {ls : List Lexeme}

theorem le_of_mem_tokensFrom (h : t ∈ tokensFrom p ls) : p ≤ t.start := by
  induction ls generalizing p with
  | nil => cases h
  | cons l ls ih =>
    rcases List.mem_cons.1 h with rfl | h
    · exact le_refl _
    · exact le_trans Position.le_after (ih h)

theorem tokensFrom_pairwise : (tokensFrom p ls).Pairwise fun a b => a.start < b.start := by
  induction ls generalizing p with
  | nil => exact List.Pairwise.nil
  | cons l ls ih =>
    refine List.Pairwise.cons ?_ ih
    intro t ht
    exact lt_of_lt_of_le (Position.lt_after l.text_ne_nil) (le_of_mem_tokensFrom ht)

/-- A place has one lexeme. -/
theorem token_unique (h : t ∈ tokensFrom p ls) (h' : t' ∈ tokensFrom p ls)
    (hstart : t.start = t'.start) : t = t' := by
  have hnodup : ((tokensFrom p ls).map Token.start).Nodup :=
    List.pairwise_map.2 (tokensFrom_pairwise.imp fun h => ne_of_lt h)
  exact List.inj_on_of_nodup_map hnodup h h' hstart

end Tokens

/-! ## Findings about a lexeme -/

/-- When a fault is reported: as soon as it is met, or at the end of the text, there the delimiters
last. -/
def Fault.phase : Fault → Nat
  | .unexpected _ _ => 0
  | .unterminated => 0
  | .unterminatedRaw => 1
  | .unclosed _ => 2

/-- When a lexeme is reported, if at all. -/
def Lexeme.phase : Lexeme → Nat
  | .delimiter c => if isOpener c then 2 else 0
  | .unfinished quote _ => if isRawQuote quote then 1 else 0
  | _ => 0

/-- A delimiter is at fault, not a string. -/
def Fault.isDelimiter : Fault → Bool
  | .unexpected _ _ => true
  | .unclosed _ => true
  | _ => false

/-- A finding that a lexeme can give rise to. -/
inductive Reported (t : Token) : Finding → Prop
  | unexpected {c : Char} {expected : Option Char} : t.lexeme = .delimiter c →
      isCloser c = true → Reported t ⟨t.start, 1, .unexpected c expected⟩
  | unclosed {c : Char} : t.lexeme = .delimiter c → isOpener c = true →
      Reported t ⟨t.start, 1, .unclosed c⟩
  | unterminated {quote : Char} {body : List Char} : t.lexeme = .unfinished quote body →
      isRawQuote quote = false → Reported t ⟨t.start, width (quote :: body), .unterminated⟩
  | unterminatedRaw {quote : Char} {body : List Char} : t.lexeme = .unfinished quote body →
      isRawQuote quote = true → Reported t ⟨t.start, 1, .unterminatedRaw⟩

section Reports

variable {p : Position} {t : Token} {ts : List Token} {s s' : Scan} {f : Finding}

theorem Reported.start_eq (h : Reported t f) : f.start = t.start := by cases h <;> rfl

theorem Reported.phase_eq (h : Reported t f) : f.fault.phase = t.lexeme.phase := by
  cases h with
  | unexpected hl hc =>
    have hopener : isOpener _ = false := not_isOpener_of_isCloser hc
    simp [hl, Lexeme.phase, hopener, Fault.phase]
  | unclosed hl hc => simp [hl, Lexeme.phase, hc, Fault.phase]
  | unterminated hl hraw => simp [hl, Lexeme.phase, hraw, Fault.phase]
  | unterminatedRaw hl hraw => simp [hl, Lexeme.phase, hraw, Fault.phase]

theorem Reported.delimiter_of_fault (h : Reported t f) (hf : f.fault.isDelimiter = true) :
    ∃ c, t.lexeme = .delimiter c := by
  cases h with
  | unexpected hl => exact ⟨_, hl⟩
  | unclosed hl => exact ⟨_, hl⟩
  | unterminated => cases hf
  | unterminatedRaw => cases hf

/-- What can be reported of a delimiter. -/
theorem Reported.of_delimiter {c : Char} (h : Reported t f) (hl : t.lexeme = .delimiter c) :
    (isOpener c = true ∧ f = ⟨t.start, 1, .unclosed c⟩) ∨
      (isCloser c = true ∧ ∃ expected, f = ⟨t.start, 1, .unexpected c expected⟩) := by
  cases h with
  | unexpected hl' hc => cases hl.symm.trans hl'; exact Or.inr ⟨hc, _, rfl⟩
  | unclosed hl' hc => cases hl.symm.trans hl'; exact Or.inl ⟨hc, rfl⟩
  | unterminated hl' => cases hl.symm.trans hl'
  | unterminatedRaw hl' => cases hl.symm.trans hl'

theorem Scan.mem_findings : f ∈ s.findings ↔
    f ∈ s.found ∨ (∃ m, s.literal = some m ∧ f = ⟨m.start, 1, .unterminatedRaw⟩) ∨
      ∃ m ∈ s.delimiters, f = ⟨m.start, 1, .unclosed m.char⟩ := by
  simp only [Scan.findings, List.mem_append, List.mem_reverse, List.mem_map, Option.mem_toList,
    or_assoc, eq_comm (b := f)]

theorem unexpected_found {s : Scan} {start : Position} {width : Nat} {c : Char}
    {expected : Option Char}
    (hf : ⟨start, width, .unexpected c expected⟩ ∈ s.findings) :
    ⟨start, width, .unexpected c expected⟩ ∈ s.found := by
  rcases Scan.mem_findings.1 hf with hf | ⟨m, -, heq⟩ | ⟨m, -, heq⟩
  · exact hf
  · cases heq
  · cases heq

theorem Noted.reported (h : Noted t s s') (hf : f ∈ s'.findings) :
    f ∈ s.findings ∨ Reported t f := by
  rw [Scan.mem_findings] at hf ⊢
  cases h with
  | silent => exact Or.inl hf
  | opened hc hopener =>
    rcases hf with hf | hf | ⟨m, hm, rfl⟩
    · exact Or.inl (Or.inl hf)
    · exact Or.inl (Or.inr (Or.inl hf))
    · rcases List.mem_cons.1 hm with rfl | hm
      · exact Or.inr (.unclosed hc hopener)
      · exact Or.inl (Or.inr (Or.inr ⟨m, hm, rfl⟩))
  | closed _ _ hstack _ =>
    rcases hf with hf | hf | ⟨m, hm, rfl⟩
    · exact Or.inl (Or.inl hf)
    · exact Or.inl (Or.inr (Or.inl hf))
    · exact Or.inl (Or.inr (Or.inr ⟨m, hstack ▸ List.mem_cons_of_mem _ hm, rfl⟩))
  | stray hc hcloser _ =>
    rcases hf with hf | hf
    · rcases List.mem_cons.1 hf with rfl | hf
      · exact Or.inr (.unexpected hc hcloser)
      · exact Or.inl (Or.inl hf)
    · exact Or.inl (Or.inr hf)
  | cutOff hl hraw =>
    rcases hf with hf | hf
    · rcases List.mem_cons.1 hf with rfl | hf
      · exact Or.inr (.unterminated hl hraw)
      · exact Or.inl (Or.inl hf)
    · exact Or.inl (Or.inr hf)
  | leftOpen hl hraw =>
    rcases hf with hf | ⟨m, hm, rfl⟩ | hf
    · exact Or.inl (Or.inl hf)
    · cases hm
      exact Or.inr (.unterminatedRaw hl hraw)
    · exact Or.inl (Or.inr (Or.inr hf))

/-- Every finding is about a lexeme. -/
theorem findings_reported (h : ∀ t ∈ ts, t.lexeme.Proper) (hf : f ∈ (scanTokens ts s).findings) :
    f ∈ s.findings ∨ ∃ t ∈ ts, Reported t f := by
  induction ts generalizing s with
  | nil => exact Or.inl hf
  | cons t ts ih =>
    obtain ⟨ht, hts⟩ := List.forall_mem_cons.1 h
    rcases ih hts hf with hf | ⟨t', ht', hf⟩
    · rcases (Token.noted ht s).reported hf with hf | hf
      · exact Or.inl hf
      · exact Or.inr ⟨t, List.mem_cons_self, hf⟩
    · exact Or.inr ⟨t', List.mem_cons_of_mem _ ht', hf⟩

/-- The lexemes of a text with their places. -/
def tokensOf (ls : List Lexeme) : List Token := tokensFrom Position.origin ls

theorem Reads.reported {cs : List Char} {ls : List Lexeme} (h : Reads cs ls) (hf : f ∈ check cs) :
    ∃ t ∈ tokensOf ls, Reported t f := by
  rw [h.check_eq] at hf
  exact (findings_reported (tokensFrom_proper h.proper) hf).resolve_left List.not_mem_nil

end Reports

/-! ## The order of findings -/

/-- All that a scan has noted lies before `p`, the latest first. -/
structure Ordered (p : Position) (s : Scan) : Prop where
  phase : ∀ f ∈ s.found, f.fault.phase = 0
  found : s.found.Pairwise fun a b => b.start < a.start
  found_lt : ∀ f ∈ s.found, f.start < p
  delimiters : s.delimiters.Pairwise fun a b => b.start < a.start
  delimiters_lt : ∀ m ∈ s.delimiters, m.start < p

section Order

variable {p p' : Position} {l : Lexeme} {ls : List Lexeme} {s s' : Scan}

theorem ordered_empty : Ordered p Scan.empty where
  phase := fun _ h => absurd h List.not_mem_nil
  found := List.Pairwise.nil
  found_lt := fun _ h => absurd h List.not_mem_nil
  delimiters := List.Pairwise.nil
  delimiters_lt := fun _ h => absurd h List.not_mem_nil

theorem Ordered.unclosed_open {m : Mark} (h : Ordered p s)
    (hf : ⟨m.start, 1, .unclosed m.char⟩ ∈ s.findings) : m ∈ s.delimiters := by
  obtain ⟨c, start⟩ := m
  rcases Scan.mem_findings.1 hf with hf | ⟨n, -, heq⟩ | ⟨⟨c', start'⟩, hn, heq⟩
  · cases h.phase _ hf
  · cases heq
  · cases heq
    exact hn

theorem Ordered.start_lt {f : Finding} (h : Ordered p s) (hf : f ∈ s.findings)
    (hdelimiter : f.fault.isDelimiter = true) : f.start < p := by
  rcases Scan.mem_findings.1 hf with hf | ⟨m, -, rfl⟩ | ⟨m, hm, rfl⟩
  · exact h.found_lt f hf
  · cases hdelimiter
  · exact h.delimiters_lt m hm

theorem Ordered.mono (h : Ordered p s) (hp : p ≤ p') : Ordered p' s :=
  { h with
    found_lt := fun f hf => lt_of_lt_of_le (h.found_lt f hf) hp
    delimiters_lt := fun m hm => lt_of_lt_of_le (h.delimiters_lt m hm) hp }

theorem Ordered.report {f : Finding} (h : Ordered p s) (hphase : f.fault.phase = 0)
    (hf : f.start = p) (hp : p < p') : Ordered p' (s.report f) :=
  { h.mono (le_of_lt hp) with
    phase := List.forall_mem_cons.2 ⟨hphase, h.phase⟩
    found := List.Pairwise.cons (fun g hg => hf ▸ h.found_lt g hg) h.found
    found_lt := List.forall_mem_cons.2 ⟨hf ▸ hp, (h.mono (le_of_lt hp)).found_lt⟩ }

theorem Ordered.step (h : Ordered p s) (hnoted : Noted ⟨p, l⟩ s s') (hp : p < p') :
    Ordered p' s' := by
  have hlater := h.mono (le_of_lt hp)
  cases hnoted with
  | silent => exact hlater
  | opened =>
    exact { hlater with
      delimiters := List.Pairwise.cons h.delimiters_lt h.delimiters
      delimiters_lt := List.forall_mem_cons.2 ⟨hp, hlater.delimiters_lt⟩ }
  | closed _ _ hstack _ =>
    have hpairwise := hstack ▸ h.delimiters
    have hlt := hstack ▸ hlater.delimiters_lt
    exact { hlater with
      delimiters := (List.pairwise_cons.1 hpairwise).2
      delimiters_lt := (List.forall_mem_cons.1 hlt).2 }
  | stray => exact h.report rfl rfl hp
  | cutOff => exact h.report rfl rfl hp
  | leftOpen => exact { hlater with }

theorem lt_after_text : p < p.after l.text := Position.lt_after l.text_ne_nil

theorem Ordered.run (h : Ordered p s) (hls : ∀ l ∈ ls, l.Proper) :
    ∃ stop, Ordered stop (scanTokens (tokensFrom p ls) s) := by
  induction ls generalizing p s with
  | nil => exact ⟨p, h⟩
  | cons l ls ih =>
    obtain ⟨hl, hbehind⟩ := List.forall_mem_cons.1 hls
    exact ih (h.step (Token.noted (t := ⟨p, l⟩) hl s) lt_after_text) hbehind

/-- First what is met on the way, then at most one raw string that is left open, then the delimiters
that are left open. The first and the last are in the order of the text. -/
def InPhases (found : List Finding) : Prop :=
  ∃ met raw left, found = met ++ raw ++ left ∧
    (∀ f ∈ met, f.fault.phase = 0) ∧ (met.Pairwise fun a b => a.start < b.start) ∧
    (∀ f ∈ raw, f.fault.phase = 1) ∧ raw.length ≤ 1 ∧
    (∀ f ∈ left, f.fault.phase = 2) ∧ (left.Pairwise fun a b => a.start < b.start)

theorem Ordered.inPhases (h : Ordered p s) : InPhases s.findings := by
  refine ⟨s.found.reverse, _, _, rfl, ?_, List.pairwise_reverse.2 h.found, ?_, ?_, ?_, ?_⟩
  · exact fun f hf => h.phase f (List.mem_reverse.1 hf)
  · intro f hf
    obtain ⟨m, -, rfl⟩ := List.mem_map.1 hf
    rfl
  · cases s.literal <;> simp
  · intro f hf
    obtain ⟨m, -, rfl⟩ := List.mem_map.1 hf
    rfl
  · rw [List.pairwise_map]
    exact List.pairwise_reverse.2 h.delimiters

/-- No two findings start at one place. -/
theorem InPhases.starts_nodup {found : List Finding} (h : InPhases found)
    (hreported : ∀ f ∈ found, ∃ t ∈ tokensFrom p ls, Reported t f) :
    (found.map Finding.start).Nodup := by
  obtain ⟨met, raw, left, rfl, hmet, hmetOrder, hraw, hone, hleft, hleftOrder⟩ := h
  have hapart : ∀ f ∈ met ++ raw ++ left, ∀ g ∈ met ++ raw ++ left,
      f.fault.phase ≠ g.fault.phase → f.start ≠ g.start := by
    intro f hf g hg hphase hstart
    obtain ⟨t, ht, htf⟩ := hreported f hf
    obtain ⟨u, hu, hug⟩ := hreported g hg
    rw [htf.start_eq, hug.start_eq] at hstart
    cases token_unique ht hu hstart
    exact hphase (htf.phase_eq.trans hug.phase_eq.symm)
  have hrawOne : raw.Pairwise fun a b => a.start ≠ b.start := by
    match raw, hone with
    | [], _ => exact List.Pairwise.nil
    | [f], _ => exact List.pairwise_singleton _ f
  rw [List.Nodup, List.pairwise_map, List.pairwise_append, List.pairwise_append]
  refine ⟨⟨hmetOrder.imp fun h => ne_of_lt h, hrawOne, ?_⟩, hleftOrder.imp fun h => ne_of_lt h, ?_⟩
  · intro f hf g hg
    apply hapart f (by simp [hf]) g (by simp [hg])
    rw [hmet f hf, hraw g hg]
    decide
  · intro f hf g hg
    apply hapart f (List.mem_append_left _ hf) g (List.mem_append_right _ hg)
    rw [hleft g hg]
    rcases List.mem_append.1 hf with hf | hf
    · rw [hmet f hf]; decide
    · rw [hraw f hf]; decide

end Order

end PromqlServer.Query
