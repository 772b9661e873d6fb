import Mathlib.Data.Prod.Lex
import PromqlServer.Prometheus.BuildInfo
import PromqlServer.Proofs.Query.Matchers

/-!
`detect_dialect`. A version has no blanks and does not start with the letter that may stand in front
of it, so that there is one way for `parse_version` to read it out of a text
(`parseVersion_eq_ok_iff`). Every exchange ends in one of three ways: there is no build information,
it tells a version, or the backend cannot be used.
-/

/-! ## White space around a text -/

namespace PromqlServer.Text

variable {core blanks blanks' : List Char}

/-- A text is what trimming leaves, with blanks around it. -/
theorem exists_trim (text : List Char) : ∃ blanks blanks', text = blanks ++ trim text ++ blanks' ∧
    (∀ c ∈ blanks, isBlank c = true) ∧ ∀ c ∈ blanks', isBlank c = true := by
  refine ⟨text.takeWhile isBlank, longestSuffix isBlank (text.dropWhile isBlank), ?_,
    fun c hc => List.all_eq_true.1 List.all_takeWhile c hc, fun c hc => of_mem_longestSuffix hc⟩
  have hrest : trim text ++ longestSuffix isBlank (text.dropWhile isBlank)
      = text.dropWhile isBlank := dropSuffix_append_longestSuffix isBlank _
  rw [List.append_assoc, hrest, List.takeWhile_append_dropWhile]

/-- All blanks around a text are taken away, and nothing of the text. -/
theorem trim_append (hblanks : ∀ c ∈ blanks, isBlank c = true)
    (hblanks' : ∀ c ∈ blanks', isBlank c = true) (hne : core ≠ [])
    (hcore : ∀ c ∈ core, isBlank c = false) : trim (blanks ++ core ++ blanks') = core := by
  obtain ⟨c, more, rfl⟩ := List.exists_cons_of_ne_nil hne
  have hfront : (blanks ++ (c :: more) ++ blanks').dropWhile isBlank = c :: more ++ blanks' := by
    have hc : isBlank c = false := hcore c List.mem_cons_self
    rw [List.append_assoc, List.dropWhile_append_of_pos hblanks, List.cons_append,
      List.dropWhile_cons_of_neg (by rw [hc]; exact Bool.false_ne_true)]
  show dropSuffix isBlank ((blanks ++ (c :: more) ++ blanks').dropWhile isBlank) = c :: more
  rw [hfront]
  exact dropSuffix_of_stops (fun d hd => hcore d (List.mem_of_getLast? hd)) hblanks'

end PromqlServer.Text

namespace PromqlServer.SemanticVersion

open PromqlServer.Text

/-! ## The characters of a version -/

def isVersionChar (c : Char) : Bool := isIdentifierChar c || c = '.' || c = '+'

/-- What is read between two places of a text are characters of versions only. -/
def Consumed (cs rest : List Char) : Prop :=
  ∃ used, cs = used ++ rest ∧ ∀ c ∈ used, isVersionChar c = true

section Characters

variable {c : Char} {cs mid rest acc text : List Char} {part last : Part} {value n fuel : Nat}
  {any : Bool} {v version : SemanticVersion}

theorem not_isBlank_of_isVersionChar (h : isVersionChar c = true) : isBlank c = false := by
  simp only [isVersionChar, isIdentifierChar, Bool.or_eq_true, decide_eq_true_eq] at h
  rcases h with ((h | rfl) | rfl) | rfl
  · exact Query.not_isBlank_of_isLabelChar (by rw [Query.isLabelChar, h, Bool.true_or])
  · decide
  · decide
  · decide

theorem isVersionChar_of_isDigit (h : c.isDigit = true) : isVersionChar c = true := by
  simp [isVersionChar, isIdentifierChar, Char.isAlphanum, h]

theorem Consumed.refl (cs : List Char) : Consumed cs cs := ⟨[], rfl, by simp⟩

theorem Consumed.cons (hc : isVersionChar c = true) (h : Consumed cs rest) :
    Consumed (c :: cs) rest := by
  obtain ⟨used, rfl, hused⟩ := h
  refine ⟨c :: used, rfl, fun d hd => ?_⟩
  rcases List.mem_cons.1 hd with rfl | hd
  · exact hc
  · exact hused d hd

theorem Consumed.trans (h : Consumed cs mid) (h' : Consumed mid rest) : Consumed cs rest := by
  obtain ⟨used, rfl, hused⟩ := h
  obtain ⟨used', rfl, hused'⟩ := h'
  refine ⟨used ++ used', (List.append_assoc _ _ _).symm, fun d hd => ?_⟩
  exact (List.mem_append.1 hd).elim (hused d) (hused' d)

theorem readDigits_consumed (h : readDigits part value any cs = .ok (n, rest)) :
    Consumed cs rest := by
  induction cs generalizing value any with
  | nil =>
    rw [readDigits] at h
    split at h
    · cases h
      exact .refl []
    · cases h
  | cons c cs ih =>
    rw [readDigits] at h
    split at h
    · rename_i hdigit
      split at h
      · cases h
      · simp only at h
        split at h
        · exact .cons (isVersionChar_of_isDigit hdigit) (ih h)
        · cases h
    · split at h
      · cases h
        exact .refl _
      · cases h

/-- A number starts with a digit. -/
theorem readNumber_starts (h : readNumber part cs = .ok (n, rest)) :
    ∃ c ∈ cs.head?, c.isDigit = true := by
  cases cs with
  | nil => cases h
  | cons c cs =>
    refine ⟨c, rfl, ?_⟩
    by_contra hdigit
    rw [readNumber, readDigits, if_neg hdigit] at h
    cases h

theorem readDot_consumed (h : readDot part cs = .ok rest) : Consumed cs rest := by
  unfold readDot at h
  split at h
  · cases h
    exact .cons (by decide) (.refl _)
  · cases h
  · cases h

theorem readSegments_consumed (h : readSegments part fuel acc cs = .ok (text, rest)) :
    Consumed cs rest := by
  induction fuel generalizing acc cs with
  | zero =>
    cases h
    exact .refl _
  | succ fuel ih =>
    have hsegment : Consumed cs (cs.dropWhile isIdentifierChar) := by
      refine ⟨cs.takeWhile isIdentifierChar, List.takeWhile_append_dropWhile.symm, fun c hc => ?_⟩
      simp [isVersionChar, List.all_eq_true.1 List.all_takeWhile c hc]
    unfold readSegments at h
    simp only at h
    split at h
    · split at h
      · cases h
        exact hsegment
      · cases h
    · obtain ⟨checked, -, h⟩ := bind_eq_ok h
      split at h
      · rename_i more hmore
        rw [hmore] at hsegment
        exact hsegment.trans (.cons (by decide) (ih h))
      · cases h
        exact hsegment

theorem readIdentifier_consumed {identifier : String}
    (h : readIdentifier part cs = .ok (identifier, rest)) : Consumed cs rest := by
  obtain ⟨found, hread, h⟩ := bind_eq_ok h
  simp only at h
  split at h
  · cases h
  · cases h
    exact readSegments_consumed hread

theorem readEnd_consumed (h : readEnd v last cs = .ok version) : Consumed cs [] := by
  unfold readEnd at h
  split at h
  · exact .refl []
  · obtain ⟨found, hread, h⟩ := bind_eq_ok h
    simp only at h
    split at h
    · rename_i hrest
      rw [← hrest]
      exact .cons (by decide) (readIdentifier_consumed hread)
    · cases h
  · cases h

/-- A version starts with a digit and has no other characters than those of versions. -/
theorem parse_consumed {text : String} (h : parse text = .ok version) :
    Consumed text.toList [] ∧ ∃ c ∈ text.toList.head?, c.isDigit = true := by
  unfold parse at h
  simp only at h
  split at h
  · cases h
  obtain ⟨major, hmajor, h⟩ := bind_eq_ok h
  obtain ⟨afterMajor, hdot, h⟩ := bind_eq_ok h
  obtain ⟨minor, hminor, h⟩ := bind_eq_ok h
  obtain ⟨afterMinor, hdot', h⟩ := bind_eq_ok h
  obtain ⟨patch, hpatch, h⟩ := bind_eq_ok h
  have hnumbers : Consumed text.toList patch.2 :=
    (readDigits_consumed hmajor).trans <| (readDot_consumed hdot).trans <|
      (readDigits_consumed hminor).trans <| (readDot_consumed hdot').trans <|
        readDigits_consumed hpatch
  refine ⟨hnumbers.trans ?_, readNumber_starts hmajor⟩
  split at h
  · rename_i more hmore
    obtain ⟨found, hread, h⟩ := bind_eq_ok h
    rw [hmore]
    exact .cons (by decide) ((readIdentifier_consumed hread).trans (readEnd_consumed h))
  · exact readEnd_consumed h

end Characters

/-! ## The order of releases -/

/-- The three numbers, compared from the left. -/
def release (v : SemanticVersion) : Nat ×ₗ Nat ×ₗ Nat := toLex (v.major, toLex (v.minor, v.patch))

theorem atLeast_iff (v least : SemanticVersion) :
    v.atLeast least = true ↔ least.release ≤ v.release := by
  simp only [atLeast, release, Prod.Lex.le_iff, ofLex_toLex, Bool.or_eq_true, Bool.and_eq_true,
    decide_eq_true_eq]

end PromqlServer.SemanticVersion

namespace PromqlServer.Prometheus

open PromqlServer.Text

/-! ## Versions in build information -/

/-- A version with a `v` in front of it or without, and with blanks around it or without. -/
def Spells (text : List Char) (version : SemanticVersion) : Prop :=
  ∃ blanks mark core blanks', text = blanks ++ (mark ++ core) ++ blanks' ∧
    (∀ c ∈ blanks, isBlank c = true) ∧ (mark = [] ∨ mark = ['v']) ∧
    SemanticVersion.parse (String.ofList core) = .ok version ∧ ∀ c ∈ blanks', isBlank c = true

/-- A text is read as a version exactly if it spells one. -/
theorem parseVersion_eq_ok_iff {text : String} {version : SemanticVersion} :
    parseVersion text = .ok version ↔ Spells text.toList version := by
  constructor
  · intro h
    obtain ⟨blanks, blanks', htext, hblanks, hblanks'⟩ := exists_trim text.toList
    unfold parseVersion at h
    split at h
    · rename_i core hcore
      rw [hcore] at htext
      exact ⟨blanks, ['v'], core, blanks', htext, hblanks, Or.inr rfl, h, hblanks'⟩
    · exact ⟨blanks, [], _, blanks', htext, hblanks, Or.inl rfl, h, hblanks'⟩
  · rintro ⟨blanks, mark, core, blanks', htext, hblanks, hmark, hparse, hblanks'⟩
    obtain ⟨⟨used, hused, hchars⟩, c, hc, hdigit⟩ := SemanticVersion.parse_consumed hparse
    rw [String.toList_ofList] at hused hc
    rw [List.append_nil] at hused
    subst hused
    have hcore : ∀ d ∈ core, isBlank d = false :=
      fun d hd => SemanticVersion.not_isBlank_of_isVersionChar (hchars d hd)
    obtain ⟨more, rfl⟩ := List.head?_eq_some_iff.1 hc
    rcases hmark with rfl | rfl
    · have htrim : trim text.toList = c :: more := by
        rw [htext]
        exact trim_append hblanks hblanks' (List.cons_ne_nil _ _) hcore
      have hv : c ≠ 'v' := by
        rintro rfl
        cases hdigit
      unfold parseVersion
      rw [htrim]
      split
      · rename_i heq
        exact absurd (List.cons.inj heq).1 hv
      · exact hparse
    · have htrim : trim text.toList = 'v' :: c :: more := by
        rw [htext]
        refine trim_append hblanks hblanks' (List.cons_ne_nil _ _) fun d hd => ?_
        rcases List.mem_cons.1 hd with rfl | hd
        · decide
        · exact hcore d hd
      unfold parseVersion
      rw [htrim]
      exact hparse

/-! ## Exchanges -/

/-- The backend has no build information. -/
def Lacks (outcome : Outcome) : Prop := ∃ response, outcome = .ok response ∧ response.status = 404

/-- The backend has build information, which tells its version. -/
def Tells (outcome : Outcome) (version : SemanticVersion) : Prop :=
  ∃ status body complaint text, outcome = .ok ⟨status, .ok body, complaint⟩ ∧
    200 ≤ status ∧ status < 300 ∧ (Json.parse? body).bind reportedVersion? = some text ∧
      Spells text.toList version

section Outcomes

variable {least : SemanticVersion} {url : Url} {outcome : Outcome} {version : SemanticVersion}

theorem detectDialect_of_lacks (h : Lacks outcome) :
    detectDialect least url outcome = .ok .legacy := by
  obtain ⟨response, rfl, hstatus⟩ := h
  rw [detectDialect]
  exact if_pos hstatus

theorem detectDialect_of_tells (h : Tells outcome version) :
    detectDialect least url outcome
      = .ok (if least.release ≤ version.release then .current else .legacy) := by
  obtain ⟨status, body, complaint, text, rfl, hlow, hhigh, hbody, hspells⟩ := h
  have hfound : status ≠ 404 := by omega
  have hsuccess : isSuccess status = true := by simp [isSuccess, hlow, hhigh]
  have hversion := parseVersion_eq_ok_iff.2 hspells
  simp [detectDialect, hfound, hsuccess, hbody, hversion, Dialect.ofVersion,
    SemanticVersion.atLeast_iff]

theorem detectDialect_eq_current_iff (h : Tells outcome version) :
    detectDialect least url outcome = .ok .current ↔ least.release ≤ version.release := by
  rw [detectDialect_of_tells h]
  simp

theorem detectDialect_eq_legacy_iff (h : Tells outcome version) :
    detectDialect least url outcome = .ok .legacy ↔ ¬ least.release ≤ version.release := by
  rw [detectDialect_of_tells h]
  simp

/-- Of the least version only the three numbers count. -/
theorem detectDialect_congr {least' : SemanticVersion} (h : least.release = least'.release) :
    detectDialect least url outcome = detectDialect least' url outcome := by
  have hdialect : ∀ version, Dialect.ofVersion version least
      = Dialect.ofVersion version least' := by
    intro version
    simp only [Dialect.ofVersion, SemanticVersion.atLeast_iff, h]
  simp only [detectDialect, hdialect]

/-- There is no fourth way for an exchange to end. -/
theorem detectDialect_cases (least : SemanticVersion) (url : Url) (outcome : Outcome) :
    Lacks outcome ∨ (∃ version, Tells outcome version) ∨
      ∃ reason, detectDialect least url outcome = .error (.dataSource url.write reason) := by
  cases outcome with
  | error failure => exact Or.inr (Or.inr ⟨_, rfl⟩)
  | ok response =>
    obtain ⟨status, answer, complaint⟩ := response
    by_cases hmissing : status = 404
    · exact Or.inl ⟨_, rfl, hmissing⟩
    right
    by_cases hsuccess : isSuccess status = true
    · cases answer with
      | error failure =>
        exact Or.inr ⟨failure.message, by simp [detectDialect, hmissing, hsuccess]⟩
      | ok body =>
        cases hbody : (Json.parse? body).bind reportedVersion? with
        | none =>
          exact Or.inr ⟨"malformed build info: " ++ complaint,
            by simp [detectDialect, hmissing, hsuccess, hbody]⟩
        | some text =>
          cases hversion : parseVersion text with
          | error e =>
            exact Or.inr ⟨e.message, by simp [detectDialect, hmissing, hsuccess, hbody, hversion]⟩
          | ok version =>
            left
            simp only [isSuccess, Bool.and_eq_true, decide_eq_true_eq] at hsuccess
            exact ⟨version, status, body, complaint, text, rfl, hsuccess.1, hsuccess.2, hbody,
              parseVersion_eq_ok_iff.1 hversion⟩
    · exact Or.inr ⟨unexpectedStatus status, by simp [detectDialect, hmissing, hsuccess]⟩

end Outcomes

/-- A backend without build information speaks the legacy dialect. One whose build information tells
its version speaks the current dialect exactly if the version is at least the least one, by the
three numbers alone. Any other is not used, and the error names the build information of that
server. So a later version or a lower bound can only lead to the current dialect, and pre-releases
and build metadata do not matter. -/
theorem dialect_detected (base : Base) (least : SemanticVersion) (outcome : Outcome) :
    let detect := fun least outcome =>
      detectDialect least (base.rootEndpoint buildInfoPath) outcome
    (Lacks outcome → detect least outcome = .ok .legacy) ∧
    (∀ version, Tells outcome version →
      (detect least outcome = .ok .current ↔ least.release ≤ version.release) ∧
      (detect least outcome = .ok .legacy ↔ ¬ least.release ≤ version.release)) ∧
    (¬ Lacks outcome → (¬ ∃ version, Tells outcome version) → ∃ reason,
      detect least outcome
        = .error (.dataSource (base.rootEndpoint buildInfoPath).write reason)) ∧
    (∀ later version version', Tells outcome version → Tells later version' →
      version.release ≤ version'.release → detect least outcome = .ok .current →
        detect least later = .ok .current) ∧
    (∀ lower : SemanticVersion, lower.release ≤ least.release →
      detect least outcome = .ok .current → detect lower outcome = .ok .current) ∧
    (∀ preRelease build, detect { least with preRelease, build } outcome = detect least outcome) ∧
    ∀ tagged version preRelease build, Tells outcome version →
      Tells tagged { version with preRelease, build } →
        detect least tagged = detect least outcome := by
  intro detect
  refine ⟨detectDialect_of_lacks, fun version htells => ?_, fun hlacks htells => ?_, ?_, ?_,
    fun _ _ => detectDialect_congr rfl, ?_⟩
  · exact ⟨detectDialect_eq_current_iff htells, detectDialect_eq_legacy_iff htells⟩
  · rcases detectDialect_cases least (base.rootEndpoint buildInfoPath) outcome with h | h | h
    · exact absurd h hlacks
    · exact absurd h htells
    · exact h
  · intro later version version' htells hlater hle hfound
    have hleast := (detectDialect_eq_current_iff htells).1 hfound
    exact (detectDialect_eq_current_iff hlater).2 (le_trans hleast hle)
  · intro lower hlower hfound
    -- only a version that is told can lead to the current dialect
    rcases detectDialect_cases least (base.rootEndpoint buildInfoPath) outcome with
      h | ⟨version, h⟩ | ⟨reason, h⟩
    · cases hfound.symm.trans (detectDialect_of_lacks h)
    · have hleast := (detectDialect_eq_current_iff h).1 hfound
      exact (detectDialect_eq_current_iff h).2 (le_trans hlower hleast)
    · cases hfound.symm.trans h
  · intro tagged version preRelease build htells htagged
    exact (detectDialect_of_tells htagged).trans (detectDialect_of_tells htells).symm

/-- A candidate for the least version is good enough, with a mark and blanks around it. -/
theorem dialect_detected_candidate :
    detectDialect { major := 2, minor := 15, patch := 0 }
        (Base.rootEndpoint ⟨"http", some { host := "a" }, ['/'], false, none, none⟩ buildInfoPath)
        (.ok ⟨200, .ok
          "\x7b\"status\":\"success\",\"data\":\x7b\"version\":\" v2.15.0-rc.1\\n\"\x7d\x7d", ""⟩)
      = .ok .current := by
  have hparse : SemanticVersion.parse (String.ofList "2.15.0-rc.1".toList)
      = .ok ⟨2, 15, 0, "rc.1", ""⟩ := by decide +kernel
  have hspells : Spells " v2.15.0-rc.1\n".toList ⟨2, 15, 0, "rc.1", ""⟩ :=
    ⟨[' '], ['v'], "2.15.0-rc.1".toList, ['\n'], by decide,
      List.forall_mem_singleton.2 (by decide), Or.inr rfl, hparse,
      List.forall_mem_singleton.2 (by decide)⟩
  have htells : Tells (.ok ⟨200, .ok
      "\x7b\"status\":\"success\",\"data\":\x7b\"version\":\" v2.15.0-rc.1\\n\"\x7d\x7d", ""⟩)
      ⟨2, 15, 0, "rc.1", ""⟩ :=
    ⟨200, _, "", " v2.15.0-rc.1\n", rfl, by decide, by decide, by decide +kernel, hspells⟩
  exact ((dialect_detected _ _ _).2.1 _ htells).1.2 (by decide)

end PromqlServer.Prometheus
