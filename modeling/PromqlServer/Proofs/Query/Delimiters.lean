import PromqlServer.Proofs.Query.Findings

/-!
Every delimiter outside of strings and comments is accounted for by the syntax checker: it is
matched with another one, or it is reported, once and at its place (`delimiters_accounted`).
-/

namespace PromqlServer.Query

open PromqlServer.Text

/-! ## Matchings -/

def Token.mark? (t : Token) : Option Mark := t.lexeme.delimiter?.map fun c => ⟨c, t.start⟩

/-- The delimiters outside of strings and comments, where they stand. -/
def marksOf (ts : List Token) : List Mark := ts.filterMap Token.mark?

/-- Pairs of an opener and a later closer of its kind. No delimiter is in two pairs, and no two
pairs cross. -/
structure Matching (marks : List Mark) (pairs : List (Mark × Mark)) : Prop where
  opener : ∀ pair ∈ pairs, pair.1 ∈ marks ∧ isOpener pair.1.char = true
  closer : ∀ pair ∈ pairs, pair.2 ∈ marks ∧ pair.2.char = closerOf pair.1.char
  later : ∀ pair ∈ pairs, pair.1.start < pair.2.start
  openers : (pairs.map Prod.fst).Nodup
  closers : (pairs.map Prod.snd).Nodup
  apart : ∀ a ∈ pairs, ∀ b ∈ pairs, a.1.start < b.1.start → b.1.start < a.2.start →
    b.2.start < a.2.start

/-- The opener stands before `p` and is not closed before. -/
structure OpenAt (marks : List Mark) (pairs : List (Mark × Mark)) (p : Position) (m : Mark) :
    Prop where
  mem : m ∈ marks
  opener : isOpener m.char = true
  before : m.start < p
  unclosed : ∀ pair ∈ pairs, pair.1 = m → p < pair.2.start

/-- The closer that can stand at `p`: that of the innermost opener which is open there, if any. -/
def Expected (marks : List Mark) (pairs : List (Mark × Mark)) (p : Position) :
    Option Char → Prop
  | none => ∀ m, ¬ OpenAt marks pairs p m
  | some c => ∃ m, OpenAt marks pairs p m ∧ (∀ n, OpenAt marks pairs p n → n.start ≤ m.start) ∧
      c = closerOf m.char

/-! ## The account of a scan -/

/-- What a scan that has come to `p` knows of the delimiters before. -/
structure Accounted (p : Position) (marks : List Mark) (pairs : List (Mark × Mark)) (s : Scan) :
    Prop where
  matching : Matching marks pairs
  marks_lt : ∀ m ∈ marks, m.start < p
  open_iff : ∀ m, m ∈ s.delimiters ↔
    m ∈ marks ∧ isOpener m.char = true ∧ ∀ pair ∈ pairs, pair.1 ≠ m
  /-- What is open is inside of no pair. -/
  outside : ∀ pair ∈ pairs, ∀ m ∈ s.delimiters, pair.1.start < m.start → pair.2.start < m.start
  /-- No closer of a pair is reported. -/
  spared : ∀ pair ∈ pairs, ∀ f ∈ s.found, f.start ≠ pair.2.start
  stray : ∀ m ∈ marks, isCloser m.char = true → (∀ pair ∈ pairs, pair.2 ≠ m) →
    ∃ expected, Expected marks pairs m.start expected ∧ expected ≠ some m.char ∧
      ⟨m.start, 1, .unexpected m.char expected⟩ ∈ s.found

section Steps

variable {p p' q : Position} {c : Char} {m n : Mark} {marks : List Mark}
  {pairs : List (Mark × Mark)} {s s' : Scan} {l : Lexeme} {ls : List Lexeme}

theorem accounted_empty : Accounted p [] [] Scan.empty where
  matching :=
    { opener := fun _ h => absurd h List.not_mem_nil
      closer := fun _ h => absurd h List.not_mem_nil
      later := fun _ h => absurd h List.not_mem_nil
      openers := List.nodup_nil
      closers := List.nodup_nil
      apart := fun _ h => absurd h List.not_mem_nil }
  marks_lt := fun _ h => absurd h List.not_mem_nil
  open_iff := by simp [Scan.empty]
  outside := fun _ h => absurd h List.not_mem_nil
  spared := fun _ h => absurd h List.not_mem_nil
  stray := fun _ h => absurd h List.not_mem_nil

/-- A delimiter at `p` and a pair that it closes do not change what was open before. -/
theorem openAt_later {m' : Mark} {more : List (Mark × Mark)} (hm : m'.start = p)
    (hmore : ∀ pair ∈ more, pair.2.start = p) (hq : q < p) :
    OpenAt (marks ++ [m']) (more ++ pairs) q n ↔ OpenAt marks pairs q n := by
  constructor
  · intro h
    refine ⟨?_, h.opener, h.before, fun pair hpair => h.unclosed pair (by simp [hpair])⟩
    rcases List.mem_append.1 h.mem with hn | hn
    · exact hn
    · have hbefore := h.before
      rw [List.mem_singleton.1 hn, hm] at hbefore
      exact absurd (lt_trans hq hbefore) (lt_irrefl _)
  · intro h
    refine ⟨List.mem_append_left _ h.mem, h.opener, h.before, ?_⟩
    intro pair hpair heq
    rcases List.mem_append.1 hpair with hpair | hpair
    · rw [hmore pair hpair]
      exact hq
    · exact h.unclosed pair hpair heq

theorem expected_later {m' : Mark} {more : List (Mark × Mark)} (hm : m'.start = p)
    (hmore : ∀ pair ∈ more, pair.2.start = p) (hq : q < p) {expected : Option Char}
    (h : Expected marks pairs q expected) :
    Expected (marks ++ [m']) (more ++ pairs) q expected := by
  cases expected with
  | none => exact fun n hn => h n ((openAt_later hm hmore hq).1 hn)
  | some c =>
    obtain ⟨m, hopen, hinnermost, hc⟩ := h
    exact ⟨m, (openAt_later hm hmore hq).2 hopen,
      fun n hn => hinnermost n ((openAt_later hm hmore hq).1 hn), hc⟩

/-- What is open at `p` is what the scan holds open. -/
theorem Accounted.openAt_iff (h : Accounted p marks pairs s) {m' : Mark} (hm : m'.start = p) :
    OpenAt (marks ++ [m']) pairs p n ↔ n ∈ s.delimiters := by
  rw [h.open_iff]
  constructor
  · intro hopen
    have hmem : n ∈ marks := by
      rcases List.mem_append.1 hopen.mem with hn | hn
      · exact hn
      · have hbefore := hopen.before
        rw [List.mem_singleton.1 hn, hm] at hbefore
        exact absurd hbefore (lt_irrefl _)
    refine ⟨hmem, hopen.opener, fun pair hpair heq => ?_⟩
    have hclosed := h.marks_lt _ (h.matching.closer pair hpair).1
    exact absurd (lt_trans (hopen.unclosed pair hpair heq) hclosed) (lt_irrefl _)
  · rintro ⟨hmem, hopener, hunpaired⟩
    exact ⟨List.mem_append_left _ hmem, hopener, h.marks_lt n hmem,
      fun pair hpair heq => absurd heq (hunpaired pair hpair)⟩

theorem Accounted.expected (h : Accounted p marks pairs s) (ho : Ordered p s) {m' : Mark}
    (hm : m'.start = p) :
    Expected (marks ++ [m']) pairs p (s.delimiters.head?.map fun m => closerOf m.char) := by
  have hopen : ∀ n, OpenAt (marks ++ [m']) pairs p n ↔ n ∈ s.delimiters :=
    fun n => h.openAt_iff hm
  have hsorted := ho.delimiters
  cases hstack : s.delimiters with
  | nil =>
    intro n hn
    rw [hopen, hstack] at hn
    exact List.not_mem_nil hn
  | cons m rest =>
    rw [hstack] at hsorted
    refine ⟨m, (hopen m).2 (by simp [hstack]), fun n hn => ?_, rfl⟩
    rw [hopen, hstack] at hn
    rcases List.mem_cons.1 hn with rfl | hn
    · exact le_refl _
    · exact le_of_lt ((List.pairwise_cons.1 hsorted).1 n hn)

/-- Closers that were reported before are reported rightly with the next delimiter, too. -/
theorem Accounted.stray_later (h : Accounted p marks pairs s) (m' : Mark)
    (more : List (Mark × Mark)) (hm' : m'.start = p) (hmore : ∀ pair ∈ more, pair.2.start = p)
    (hm : m ∈ marks) (hcloser : isCloser m.char = true) (hunpaired : ∀ pair ∈ pairs, pair.2 ≠ m) :
    ∃ expected, Expected (marks ++ [m']) (more ++ pairs) m.start expected ∧
      expected ≠ some m.char ∧ ⟨m.start, 1, .unexpected m.char expected⟩ ∈ s.found := by
  obtain ⟨expected, hexpected, hreported⟩ := h.stray m hm hcloser hunpaired
  exact ⟨expected, expected_later hm' hmore (h.marks_lt m hm) hexpected, hreported⟩

theorem Matching.later_mark {m' : Mark} (h : Matching marks pairs) :
    Matching (marks ++ [m']) pairs :=
  { h with
    opener := fun pair hpair =>
      ⟨List.mem_append_left _ (h.opener pair hpair).1, (h.opener pair hpair).2⟩
    closer := fun pair hpair =>
      ⟨List.mem_append_left _ (h.closer pair hpair).1, (h.closer pair hpair).2⟩ }

theorem Accounted.mono (h : Accounted p marks pairs s) (hp : p ≤ p') :
    Accounted p' marks pairs s :=
  { h with marks_lt := fun m hm => lt_of_lt_of_le (h.marks_lt m hm) hp }

theorem Accounted.opener_ne (h : Accounted p marks pairs s) {m' : Mark} (hm : m'.start = p)
    {pair : Mark × Mark} (hpair : pair ∈ pairs) : pair.1 ≠ m' := by
  rintro rfl
  exact absurd hm (ne_of_lt (h.marks_lt _ (h.matching.opener pair hpair).1))

theorem Accounted.report {f : Finding} (h : Accounted p marks pairs s) (hf : f.start = p)
    (hp : p < p') : Accounted p' marks pairs (s.report f) :=
  { h.mono (le_of_lt hp) with
    spared := by
      intro pair hpair g hg
      rcases List.mem_cons.1 hg with rfl | hg
      · rw [hf]
        exact (ne_of_lt (h.marks_lt _ (h.matching.closer pair hpair).1)).symm
      · exact h.spared pair hpair g hg
    stray := by
      intro m hm hcloser hunpaired
      obtain ⟨expected, hexpected, hmisfits, hfound⟩ := h.stray m hm hcloser hunpaired
      exact ⟨expected, hexpected, hmisfits, List.mem_cons_of_mem _ hfound⟩ }

theorem marks_concat_lt (h : ∀ m ∈ marks, m.start < p) (hm : m.start = p) (hp : p < p') :
    ∀ n ∈ marks ++ [m], n.start < p' := by
  intro n hn
  rcases List.mem_append.1 hn with hn | hn
  · exact lt_trans (h n hn) hp
  · rw [List.mem_singleton.1 hn, hm]
    exact hp

theorem Accounted.opened (h : Accounted p marks pairs s) (hc : isOpener c = true) (hp : p < p') :
    Accounted p' (marks ++ [⟨c, p⟩]) pairs { s with delimiters := ⟨c, p⟩ :: s.delimiters } where
  matching := h.matching.later_mark
  marks_lt := marks_concat_lt h.marks_lt rfl hp
  open_iff := by
    intro m
    rw [List.mem_cons, h.open_iff, List.mem_append, List.mem_singleton]
    constructor
    · rintro (rfl | ⟨hm, hopener, hunpaired⟩)
      · exact ⟨Or.inr rfl, hc, fun pair hpair => h.opener_ne rfl hpair⟩
      · exact ⟨Or.inl hm, hopener, hunpaired⟩
    · rintro ⟨hm | rfl, hopener, hunpaired⟩
      · exact Or.inr ⟨hm, hopener, hunpaired⟩
      · exact Or.inl rfl
  outside := by
    intro pair hpair m hm hlt
    rcases List.mem_cons.1 hm with rfl | hm
    · exact h.marks_lt _ (h.matching.closer pair hpair).1
    · exact h.outside pair hpair m hm hlt
  spared := h.spared
  stray := by
    intro m hm hcloser hunpaired
    rcases List.mem_append.1 hm with hm | hm
    · exact h.stray_later ⟨c, p⟩ [] rfl (by simp) hm hcloser hunpaired
    · rw [List.mem_singleton.1 hm, not_isCloser_of_isOpener hc] at hcloser
      cases hcloser

/-- A closer that does not fit is reported and leaves the pairs as they are. -/
theorem Accounted.strayed (h : Accounted p marks pairs s) (ho : Ordered p s)
    (hc : isCloser c = true) (hmisfits : ∀ m ∈ s.delimiters.head?, closerOf m.char ≠ c)
    (hp : p < p') :
    Accounted p' (marks ++ [⟨c, p⟩]) pairs (s.report
      ⟨p, 1, .unexpected c (s.delimiters.head?.map fun m => closerOf m.char)⟩) :=
  { h.report (f := ⟨p, 1, .unexpected c _⟩) rfl hp with
    matching := h.matching.later_mark
    marks_lt := marks_concat_lt h.marks_lt rfl hp
    open_iff := by
      intro m
      show m ∈ s.delimiters ↔ _
      rw [h.open_iff, List.mem_append, List.mem_singleton]
      constructor
      · rintro ⟨hm, hopener, hunpaired⟩
        exact ⟨Or.inl hm, hopener, hunpaired⟩
      · rintro ⟨hm | rfl, hopener, hunpaired⟩
        · exact ⟨hm, hopener, hunpaired⟩
        · rw [not_isCloser_of_isOpener hopener] at hc
          cases hc
    stray := by
      intro m hm hcloser hunpaired
      rcases List.mem_append.1 hm with hm | hm
      · obtain ⟨expected, hexpected, hmisfits, hfound⟩ :=
          h.stray_later ⟨c, p⟩ [] rfl (by simp) hm hcloser hunpaired
        exact ⟨expected, hexpected, hmisfits, List.mem_cons_of_mem _ hfound⟩
      · rw [List.mem_singleton.1 hm]
        refine ⟨_, h.expected ho rfl, ?_, List.mem_cons_self⟩
        intro hfits
        obtain ⟨n, hn, hchar⟩ := Option.map_eq_some_iff.1 hfits
        exact hmisfits n hn hchar }

/-- A closer behind all delimiters makes a pair with an opener that is inside of no pair. -/
theorem Matching.pair (h : Matching marks pairs) (hmarks : ∀ n ∈ marks, n.start < p)
    (hm : m ∈ marks) (hopener : isOpener m.char = true) (hunpaired : ∀ pair ∈ pairs, pair.1 ≠ m)
    (houtside : ∀ pair ∈ pairs, pair.1.start < m.start → pair.2.start < m.start) :
    Matching (marks ++ [⟨closerOf m.char, p⟩]) ((m, ⟨closerOf m.char, p⟩) :: pairs) := by
  have hwider : Matching (marks ++ [⟨closerOf m.char, p⟩]) pairs := h.later_mark
  have hclosed : ∀ pair ∈ pairs, pair.2.start < p :=
    fun pair hpair => hmarks _ (h.closer pair hpair).1
  constructor
  case opener => exact List.forall_mem_cons.2 ⟨⟨by simp [hm], hopener⟩, hwider.opener⟩
  case closer => exact List.forall_mem_cons.2 ⟨⟨by simp, rfl⟩, hwider.closer⟩
  case later => exact List.forall_mem_cons.2 ⟨hmarks m hm, h.later⟩
  case openers =>
    refine List.nodup_cons.2 ⟨?_, h.openers⟩
    intro hmem
    obtain ⟨pair, hpair, heq⟩ := List.mem_map.1 hmem
    exact hunpaired pair hpair heq
  case closers =>
    refine List.nodup_cons.2 ⟨?_, h.closers⟩
    intro hmem
    obtain ⟨pair, hpair, heq⟩ := List.mem_map.1 hmem
    have hlt := hclosed pair hpair
    rw [heq] at hlt
    exact lt_irrefl _ hlt
  case apart =>
    intro a ha b hb hfirst hsecond
    rcases List.mem_cons.1 ha with rfl | ha <;> rcases List.mem_cons.1 hb with rfl | hb
    · exact absurd hfirst (lt_irrefl _)
    · exact hclosed b hb
    · exact absurd (lt_trans hsecond (houtside a ha hfirst)) (lt_irrefl _)
    · exact h.apart a ha b hb hfirst hsecond

/-- A closer that fits makes a pair with the innermost open delimiter. -/
theorem Accounted.closed {rest : List Mark} (h : Accounted p marks pairs s) (ho : Ordered p s)
    (hstack : s.delimiters = m :: rest) (hp : p < p') :
    Accounted p' (marks ++ [⟨closerOf m.char, p⟩]) ((m, ⟨closerOf m.char, p⟩) :: pairs)
      { s with delimiters := rest } := by
  have hm : m ∈ s.delimiters := by simp [hstack]
  obtain ⟨hmarks, hopener, hunpaired⟩ := (h.open_iff m).1 hm
  have hsorted := ho.delimiters
  rw [hstack] at hsorted
  obtain ⟨hinnermost, -⟩ := List.pairwise_cons.1 hsorted
  have hrest : ∀ n ∈ rest, n ∈ s.delimiters := fun n hn => by simp [hstack, hn]
  constructor
  case matching =>
    exact h.matching.pair h.marks_lt hmarks hopener hunpaired
      fun pair hpair => h.outside pair hpair m hm
  case marks_lt => exact marks_concat_lt h.marks_lt rfl hp
  case open_iff =>
    intro n
    rw [List.mem_append, List.mem_singleton, List.forall_mem_cons]
    constructor
    · intro hn
      obtain ⟨hmem, ho, hfree⟩ := (h.open_iff n).1 (hrest n hn)
      refine ⟨Or.inl hmem, ho, ?_, hfree⟩
      rintro rfl
      exact lt_irrefl _ (hinnermost _ hn)
    · rintro ⟨hmem | rfl, ho, hne, hfree⟩
      · have hn := (h.open_iff n).2 ⟨hmem, ho, hfree⟩
        rw [hstack] at hn
        exact (List.mem_cons.1 hn).resolve_left fun heq => hne heq.symm
      · rw [not_isOpener_of_isCloser (isCloser_closerOf _)] at ho
        cases ho
  case outside =>
    intro pair hpair n hn hlt
    rcases List.mem_cons.1 hpair with rfl | hpair
    · exact absurd (lt_trans hlt (hinnermost n hn)) (lt_irrefl _)
    · exact h.outside pair hpair n (hrest n hn) hlt
  case spared =>
    intro pair hpair f hf
    rcases List.mem_cons.1 hpair with rfl | hpair
    · exact ne_of_lt (ho.found_lt f hf)
    · exact h.spared pair hpair f hf
  case stray =>
    intro n hn hcloser hfree
    rw [List.forall_mem_cons] at hfree
    rcases List.mem_append.1 hn with hn | hn
    · exact h.stray_later ⟨closerOf m.char, p⟩ [(m, ⟨closerOf m.char, p⟩)] rfl (by simp) hn
        hcloser hfree.2
    · exact absurd (List.mem_singleton.1 hn).symm hfree.1

theorem Accounted.step (h : Accounted p marks pairs s) (ho : Ordered p s)
    (hnoted : Noted ⟨p, l⟩ s s') (hp : p < p') :
    ∃ pairs', Accounted p' (marks ++ (Token.mark? ⟨p, l⟩).toList) pairs' s' := by
  have hlater := h.mono (le_of_lt hp)
  cases hnoted with
  | silent hdelimiter =>
    have hmark : Token.mark? ⟨p, l⟩ = none := by rw [Token.mark?, hdelimiter]; rfl
    rw [hmark, Option.toList_none, List.append_nil]
    exact ⟨pairs, hlater⟩
  | opened hl hc =>
    obtain rfl := hl
    exact ⟨pairs, h.opened hc hp⟩
  | closed hl _ hstack hfits =>
    obtain rfl := hl
    subst hfits
    exact ⟨_, h.closed ho hstack hp⟩
  | stray hl hc hmisfits =>
    obtain rfl := hl
    exact ⟨pairs, h.strayed ho hc hmisfits hp⟩
  | cutOff hl =>
    obtain rfl := hl
    refine ⟨pairs, ?_⟩
    rw [show (Token.mark? ⟨p, .unfinished _ _⟩).toList = [] from rfl, List.append_nil]
    exact h.report rfl hp
  | leftOpen hl =>
    obtain rfl := hl
    refine ⟨pairs, ?_⟩
    rw [show (Token.mark? ⟨p, .unfinished _ _⟩).toList = [] from rfl, List.append_nil]
    exact { hlater with }

/-- The account goes on with every lexeme. -/
theorem Accounted.run (h : Accounted p marks pairs s) (ho : Ordered p s)
    (hls : ∀ l ∈ ls, l.Proper) :
    ∃ stop pairs', Accounted stop (marks ++ marksOf (tokensFrom p ls)) pairs'
      (scanTokens (tokensFrom p ls) s) := by
  induction ls generalizing p marks pairs s with
  | nil => exact ⟨p, pairs, by simpa [tokensFrom, marksOf] using h⟩
  | cons l ls ih =>
    obtain ⟨hl, hbehind⟩ := List.forall_mem_cons.1 hls
    have hnoted := Token.noted (t := ⟨p, l⟩) hl s
    obtain ⟨pairs', hstep⟩ := h.step ho hnoted (lt_after_text (l := l))
    obtain ⟨stop, pairs'', hrun⟩ := ih hstep (ho.step hnoted lt_after_text) hbehind
    have hmarks : marksOf (tokensFrom p (l :: ls))
        = (Token.mark? ⟨p, l⟩).toList ++ marksOf (tokensFrom (p.after l.text) ls) := by
      rw [tokensFrom, marksOf, List.filterMap_cons]
      cases Token.mark? ⟨p, l⟩ <;> rfl
    rw [List.append_assoc, ← hmarks] at hrun
    exact ⟨stop, pairs'', hrun⟩

end Steps

/-! ## The report of a text -/

/-- A delimiter without partner is reported once, where it stands, and one with partner is not. A
closer is reported with the closer that could stand in its place, which is another one. -/
structure UnmatchedReported (marks : List Mark) (pairs : List (Mark × Mark))
    (found : List Finding) : Prop where
  unclosed : ∀ m ∈ marks, isOpener m.char = true → (∀ pair ∈ pairs, pair.1 ≠ m) →
    found.filter (fun f => f.start = m.start) = [⟨m.start, 1, .unclosed m.char⟩]
  unexpected : ∀ m ∈ marks, isCloser m.char = true → (∀ pair ∈ pairs, pair.2 ≠ m) →
    ∃ expected, Expected marks pairs m.start expected ∧ expected ≠ some m.char ∧
      found.filter (fun f => f.start = m.start) = [⟨m.start, 1, .unexpected m.char expected⟩]
  matched : ∀ pair ∈ pairs, ∀ f ∈ found, f.start ≠ pair.1.start ∧ f.start ≠ pair.2.start
  only : ∀ f ∈ found, f.fault.isDelimiter = true → ∃ m ∈ marks, m.start = f.start

section Text

variable {m : Mark} {t : Token} {ts : List Token} {f : Finding} {found : List Finding}

theorem mem_marksOf : m ∈ marksOf ts ↔ ⟨m.start, .delimiter m.char⟩ ∈ ts := by
  rw [marksOf, List.mem_filterMap]
  constructor
  · rintro ⟨⟨start, lexeme⟩, ht, hm⟩
    cases lexeme with
    | delimiter c => cases hm; exact ht
    | ordinary | comment | literal | unfinished => cases hm
  · exact fun ht => ⟨_, ht, rfl⟩

/-- If starts are distinct, then one finding starts where it does. -/
theorem filter_start (hnodup : (found.map Finding.start).Nodup) (hf : f ∈ found) :
    found.filter (fun g => g.start = f.start) = [f] := by
  obtain ⟨before, after, rfl⟩ := List.append_of_mem hf
  rw [List.Nodup, List.pairwise_map, List.pairwise_append, List.pairwise_cons] at hnodup
  obtain ⟨-, ⟨hafter, -⟩, hbefore⟩ := hnodup
  have hnone : before.filter (fun g => g.start = f.start) = [] := by
    rw [List.filter_eq_nil_iff]
    intro g hg
    simpa using hbefore g hg f List.mem_cons_self
  have hnone' : after.filter (fun g => g.start = f.start) = [] := by
    rw [List.filter_eq_nil_iff]
    intro g hg
    simpa using (hafter g hg).symm
  simp [List.filter_append, hnone, hnone']

/-- The account of a whole text is what the check reports. -/
theorem Accounted.unmatchedReported {p q : Position} {ls : List Lexeme} {s : Scan}
    {pairs : List (Mark × Mark)} (h : Accounted p (marksOf (tokensOf ls)) pairs s)
    (ho : Ordered q s) (hreported : ∀ f ∈ s.findings, ∃ t ∈ tokensOf ls, Reported t f) :
    UnmatchedReported (marksOf (tokensOf ls)) pairs s.findings := by
  have hnodup := ho.inPhases.starts_nodup hreported
  -- A finding where a delimiter stands is about that delimiter.
  have hown : ∀ m ∈ marksOf (tokensOf ls), ∀ f ∈ s.findings, f.start = m.start →
      Reported ⟨m.start, .delimiter m.char⟩ f := by
    intro m hm f hf hstart
    obtain ⟨t, ht, htf⟩ := hreported f hf
    rw [htf.start_eq] at hstart
    rwa [token_unique ht (mem_marksOf.1 hm) hstart] at htf
  constructor
  case unclosed =>
    intro m hm hopener hunpaired
    apply filter_start hnodup (f := ⟨m.start, 1, .unclosed m.char⟩)
    exact Scan.mem_findings.2 (Or.inr (Or.inr ⟨m, (h.open_iff m).2 ⟨hm, hopener, hunpaired⟩, rfl⟩))
  case unexpected =>
    intro m hm hcloser hunpaired
    obtain ⟨expected, hexpected, hmisfits, hfound⟩ := h.stray m hm hcloser hunpaired
    refine ⟨expected, hexpected, hmisfits, ?_⟩
    exact filter_start hnodup (Scan.mem_findings.2 (Or.inl hfound))
  case matched =>
    intro pair hpair f hf
    obtain ⟨hmem, hopener⟩ := h.matching.opener pair hpair
    obtain ⟨hmem', hchar⟩ := h.matching.closer pair hpair
    constructor
    · intro hstart
      rcases (hown _ hmem f hf hstart).of_delimiter rfl with ⟨-, rfl⟩ | ⟨hcloser, -⟩
      · exact ((h.open_iff _).1 (ho.unclosed_open hf)).2.2 pair hpair rfl
      · rw [not_isOpener_of_isCloser hcloser] at hopener
        cases hopener
    · intro hstart
      rcases (hown _ hmem' f hf hstart).of_delimiter rfl with ⟨hopener', -⟩ | ⟨-, expected, rfl⟩
      · rw [hchar, not_isOpener_of_isCloser (isCloser_closerOf _)] at hopener'
        cases hopener'
      · exact h.spared pair hpair _ (unexpected_found hf) rfl
  case only =>
    intro f hf hdelimiter
    obtain ⟨⟨start, lexeme⟩, ht, htf⟩ := hreported f hf
    obtain ⟨c, hl⟩ := htf.delimiter_of_fault hdelimiter
    obtain rfl : lexeme = .delimiter c := hl
    exact ⟨⟨c, start⟩, mem_marksOf.2 ht, htf.start_eq.symm⟩

end Text

/-- Every delimiter of a text is accounted for exactly once. -/
theorem delimiters_accounted (content : String) :
    ∃ lexemes found pairs, (∀ other, Reads content.toList other ↔ other = lexemes) ∧
      diagnostics (fun _ => false) content = .ok (found.map Finding.toDiagnostic) ∧
      Matching (marksOf (tokensOf lexemes)) pairs ∧
      UnmatchedReported (marksOf (tokensOf lexemes)) pairs found ∧
      InPhases found ∧ (found.map Finding.start).Nodup := by
  obtain ⟨lexemes, h⟩ := exists_reads content.toList
  have hcheck : check content.toList = (scanTokens (tokensOf lexemes) Scan.empty).findings :=
    h.check_eq
  have hreported : ∀ f ∈ (scanTokens (tokensOf lexemes) Scan.empty).findings,
      ∃ t ∈ tokensOf lexemes, Reported t f := fun f hf => h.reported (hcheck ▸ hf)
  obtain ⟨_, ho⟩ := (ordered_empty (p := Position.origin)).run h.proper
  obtain ⟨_, pairs, haccount⟩ :=
    (accounted_empty (p := Position.origin)).run ordered_empty h.proper
  rw [List.nil_append] at haccount
  refine ⟨lexemes, check content.toList, pairs, ?_, diagnostics_eq_ok content, haccount.matching,
    ?_, ?_, ?_⟩
  · intro other
    constructor
    · exact fun hother => hother.unique h
    · rintro rfl
      exact h
  · rw [hcheck]
    exact haccount.unmatchedReported ho hreported
  · rw [hcheck]
    exact ho.inPhases
  · rw [hcheck]
    exact ho.inPhases.starts_nodup hreported

end PromqlServer.Query
