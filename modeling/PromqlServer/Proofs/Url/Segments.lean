import Mathlib.Data.List.Induction
import PromqlServer.Proofs.Text.Cuts
import PromqlServer.Proofs.Url.Readings

/-!
Paths as lists of segments. Every path of a special URL that is parsed is in normal form
(`readPathStart_isNormal`): nothing in its segments would be encoded or end them, and none of them
is a dot segment. `set_path` leaves a path in normal form as it is (`withPath_of_isNormal`), and it
stays in normal form without the slashes at its end and with more segments behind it.
-/

namespace PromqlServer.Url

open PromqlServer.Text (dropSuffix splitAt)

/-! ## Segments -/

/-- The path of some segments, with a slash in front of each. -/
def joinSegments (segments : List (List Char)) : List Char := segments.flatMap ('/' :: ·)

/-- Characters that stand for themselves in a segment. -/
def isSegmentChar (c : Char) : Bool := !pathSet c && !isSlash .special c

/-- A segment that is read as it is. -/
structure IsSegment (segment : List Char) : Prop where
  chars : ∀ c ∈ segment, isSegmentChar c = true
  notDot : isSingleDot segment = false ∧ isDoubleDot segment = false

/-- One or more segments that are read as they are. -/
def IsNormal (path : List Char) : Prop :=
  ∃ segments, segments ≠ [] ∧ (∀ s ∈ segments, IsSegment s) ∧ path = joinSegments segments

/-- What is read of a path up to a slash: segments in normal form, and the slash. -/
def IsNormalBefore (path : List Char) : Prop :=
  ∃ segments, (∀ s ∈ segments, IsSegment s) ∧ path = joinSegments segments ++ ['/']

section Segments

variable {c : Char} {cs segment path : List Char} {segments more : List (List Char)}

@[simp] theorem joinSegments_nil : joinSegments [] = [] := rfl

@[simp] theorem joinSegments_cons :
    joinSegments (segment :: segments) = '/' :: segment ++ joinSegments segments :=
  List.flatMap_cons

@[simp] theorem joinSegments_append :
    joinSegments (segments ++ more) = joinSegments segments ++ joinSegments more :=
  List.flatMap_append

theorem isSegmentChar_iff :
    isSegmentChar c = true ↔ pathSet c = false ∧ isSlash .special c = false := by
  simp [isSegmentChar]

theorem isSegmentChar_of_isWordChar (h : isWordChar c = true) : isSegmentChar c = true :=
  isSegmentChar_iff.2 ⟨pathSet_of_isWordChar h, isSlash_of_isWordChar h .special⟩

/-- What stands for a character of a segment stands for itself. -/
theorem isSegmentChar_encodeChar (h : isSlash .special c = false) :
    ∀ x ∈ encodeChar pathSet c, isSegmentChar x = true := by
  intro x hx
  rcases mem_encodeChar hx with rfl | halpha | ⟨rfl, hset⟩
  · decide
  · exact isSegmentChar_of_isWordChar (by rw [isWordChar, halpha]; rfl)
  · exact isSegmentChar_iff.2 ⟨hset, h⟩

theorem isSegment_nil : IsSegment [] := ⟨by simp, by decide⟩

theorem IsSegment.notMem (h : IsSegment segment) : '/' ∉ segment := by
  intro hmem
  have hslash : isSegmentChar '/' = true := h.chars '/' hmem
  revert hslash
  decide

theorem IsNormalBefore.isNormal (h : IsNormalBefore path) : IsNormal path := by
  obtain ⟨segments, hsegments, rfl⟩ := h
  refine ⟨segments ++ [[]], by simp, ?_, by simp⟩
  exact List.forall_mem_append.2 ⟨hsegments, List.forall_mem_singleton.2 isSegment_nil⟩

/-! ### Between slashes -/

theorem splitAt_ne_nil (sep : Char) (cs : List Char) : splitAt sep cs ≠ [] := by
  cases cs with
  | nil => simp [splitAt]
  | cons c cs =>
    rw [splitAt]
    split
    · simp
    · split <;> simp

/-- A text behind a slash is the path of its parts between slashes. -/
theorem joinSegments_splitAt (cs : List Char) : joinSegments (splitAt '/' cs) = '/' :: cs := by
  induction cs with
  | nil => rfl
  | cons c cs ih =>
    rw [splitAt]
    split
    · rename_i hc
      rw [joinSegments_cons, ih, hc]
      rfl
    · split
      · rename_i hnil
        exact absurd hnil (splitAt_ne_nil '/' cs)
      · rename_i first rest hsplit
        rw [hsplit, joinSegments_cons, List.cons_append, List.cons.injEq] at ih
        rw [joinSegments_cons, List.cons_append, List.cons_append, ih.2]

theorem mem_of_mem_splitAt {sep : Char} (hs : segment ∈ splitAt sep cs) (hc : c ∈ segment) :
    c ∈ cs ∧ c ≠ sep := by
  induction cs generalizing segment with
  | nil =>
    rw [splitAt, List.mem_singleton] at hs
    rw [hs] at hc
    cases hc
  | cons d cs ih =>
    have hbelow : segment ∈ splitAt sep cs → c ∈ d :: cs ∧ c ≠ sep := fun hs =>
      ⟨List.mem_cons_of_mem _ (ih hs hc).1, (ih hs hc).2⟩
    rw [splitAt] at hs
    split at hs
    · rcases List.mem_cons.1 hs with rfl | hs
      · cases hc
      · exact hbelow hs
    · rename_i hd
      split at hs
      · rename_i hnil
        exact absurd hnil (splitAt_ne_nil sep cs)
      · rename_i first rest hsplit
        rcases List.mem_cons.1 hs with rfl | hs
        · rcases List.mem_cons.1 hc with rfl | hc
          · exact ⟨List.mem_cons_self .., hd⟩
          · have hfirst := ih (hsplit ▸ List.mem_cons_self ..) hc
            exact ⟨List.mem_cons_of_mem _ hfirst.1, hfirst.2⟩
        · exact hbelow (hsplit ▸ List.mem_cons_of_mem _ hs)

/-! ## What is read -/

/-- Without its last segment a path stays in normal form. -/
theorem dropSegment_isNormalBefore (h : IsNormalBefore path) :
    IsNormalBefore (dropSegment path) := by
  obtain ⟨segments, hsegments, rfl⟩ := h
  rcases List.eq_nil_or_concat segments with rfl | ⟨front, last, rfl⟩
  · exact ⟨[], by simp, by decide⟩
  have hlast : '/' ∉ last := (hsegments last (by simp)).notMem
  have hparent : (last.reverse ++ '/' :: (joinSegments front).reverse).dropWhile (· ≠ '/')
      = '/' :: (joinSegments front).reverse := by
    rw [List.dropWhile_append_of_pos]
    · simp
    · intro x hx
      exact decide_eq_true fun heq => hlast (heq ▸ List.mem_reverse.1 hx)
  have hreverse : (joinSegments (front ++ [last]) ++ ['/']).reverse
      = '/' :: (last.reverse ++ '/' :: (joinSegments front).reverse) := by simp
  simp only [List.concat_eq_append] at hsegments ⊢
  rw [dropSegment, hreverse]
  simp only [hparent]
  split
  · exact ⟨front ++ [last], hsegments, rfl⟩
  · refine ⟨front, fun s hs => hsegments s (List.mem_append_left _ hs), ?_⟩
    rw [List.reverse_cons, List.reverse_reverse]

/-- All that one more segment can do. -/
theorem addSegment_cases (h : IsNormalBefore path) (segment : List Char) (slash : Bool) :
    IsNormalBefore (addSegment .special path segment slash) ∨
      (isSingleDot segment = false ∧ isDoubleDot segment = false) ∧
        addSegment .special path segment slash
          = path ++ segment ++ (if slash then ['/'] else []) := by
  by_cases hdouble : isDoubleDot segment = true
  · left
    rw [addSegment, if_pos hdouble]
    exact dropSegment_isNormalBefore h
  by_cases hsingle : isSingleDot segment = true
  · left
    obtain ⟨segments, hsegments, rfl⟩ := h
    rw [addSegment, if_neg hdouble, if_pos hsingle, if_pos (by simp)]
    exact ⟨segments, hsegments, rfl⟩
  · right
    rw [Bool.not_eq_true] at hdouble hsingle
    exact ⟨⟨hsingle, hdouble⟩, addSegment_of_not_dot ⟨hsingle, hdouble⟩ slash⟩

theorem addSegment_slash (h : IsNormalBefore path)
    (hchars : ∀ c ∈ segment, isSegmentChar c = true) :
    IsNormalBefore (addSegment .special path segment true) := by
  rcases addSegment_cases h segment true with hnormal | ⟨hdot, hadded⟩
  · exact hnormal
  · obtain ⟨segments, hsegments, rfl⟩ := h
    rw [hadded]
    refine ⟨segments ++ [segment], ?_, by simp⟩
    exact List.forall_mem_append.2 ⟨hsegments, List.forall_mem_singleton.2 ⟨hchars, hdot⟩⟩

theorem addSegment_end (h : IsNormalBefore path)
    (hchars : ∀ c ∈ segment, isSegmentChar c = true) :
    IsNormal (addSegment .special path segment false) := by
  rcases addSegment_cases h segment false with hnormal | ⟨hdot, hadded⟩
  · exact hnormal.isNormal
  · obtain ⟨segments, hsegments, rfl⟩ := h
    rw [hadded]
    refine ⟨segments ++ [segment], by simp, ?_, by simp⟩
    exact List.forall_mem_append.2 ⟨hsegments, List.forall_mem_singleton.2 ⟨hchars, hdot⟩⟩

/-- Whatever ends it, a path is read in normal form. -/
theorem readPath_isNormal (stops : Char → Bool) (h : IsNormalBefore path)
    (hchars : ∀ c ∈ segment, isSegmentChar c = true) (cs : List Char) :
    IsNormal (readPath .special stops path segment cs).1 := by
  have hreverse : ∀ {segment : List Char}, (∀ c ∈ segment, isSegmentChar c = true) →
      ∀ c ∈ segment.reverse, isSegmentChar c = true := fun hs c hc => hs c (List.mem_reverse.1 hc)
  induction cs generalizing path segment with
  | nil => exact addSegment_end h (hreverse hchars)
  | cons c cs ih =>
    rw [readPath]
    split
    · exact ih (addSegment_slash h (hreverse hchars)) (by simp)
    · rename_i hslash
      rw [Bool.not_eq_true] at hslash
      split
      · exact addSegment_end h (hreverse hchars)
      · refine ih h fun x hx => ?_
        rcases List.mem_append.1 hx with hx | hx
        · exact isSegmentChar_encodeChar hslash x (List.mem_reverse.1 hx)
        · exact hchars x hx

theorem readPathStart_isNormal (stops : Char → Bool) (cs : List Char) :
    IsNormal (readPathStart .special stops cs).1 := by
  have hroot : IsNormalBefore ['/'] := ⟨[], by simp, rfl⟩
  have hread : ∀ cs, IsNormal (readPath .special stops ['/'] [] cs).1 :=
    readPath_isNormal stops hroot (by simp)
  cases cs with
  | nil => exact hroot.isNormal
  | cons c rest =>
    rw [readPathStart]
    split
    · exact hread rest
    · exact hread (c :: rest)

/-! ## Paths in normal form -/

theorem readPath_chars (h : ∀ c ∈ segment, isSegmentChar c = true) (path typed cs : List Char) :
    readPath .special (fun _ => false) path typed (segment ++ cs)
      = readPath .special (fun _ => false) path (segment.reverse ++ typed) cs := by
  induction segment generalizing typed with
  | nil => rfl
  | cons c segment ih =>
    obtain ⟨hset, hslash⟩ := isSegmentChar_iff.1 (h c (List.mem_cons_self ..))
    have hkept : encodeChar pathSet c = [c] := by simp [encodeChar, hset]
    rw [List.cons_append, readPath, if_neg (by simp [hslash]), if_neg (by simp), hkept,
      ih fun x hx => h x (List.mem_cons_of_mem _ hx)]
    simp

/-- Segments are read one after the other as they are. -/
theorem readPath_joinSegments (h : IsSegment segment) (hsegments : ∀ s ∈ segments, IsSegment s)
    (path : List Char) :
    readPath .special (fun _ => false) path [] (segment ++ joinSegments segments)
      = (path ++ segment ++ joinSegments segments, []) := by
  induction segments generalizing path segment with
  | nil =>
    rw [readPath_chars h.chars, List.append_nil, joinSegments_nil, readPath, List.reverse_reverse,
      addSegment_of_not_dot h.notDot]
    rfl
  | cons next segments ih =>
    have hslash : isSlash .special '/' = true := by decide
    have hnext : IsSegment next := hsegments next (List.mem_cons_self ..)
    rw [readPath_chars h.chars, List.append_nil, joinSegments_cons, List.cons_append, readPath,
      if_pos hslash, List.reverse_reverse, addSegment_of_not_dot h.notDot,
      ih hnext fun s hs => hsegments s (List.mem_cons_of_mem _ hs)]
    simp

theorem readPathStart_of_isNormal (h : IsNormal path) :
    (readPathStart .special (fun _ => false) path).1 = path := by
  obtain ⟨segments, hne, hsegments, rfl⟩ := h
  cases segments with
  | nil => exact absurd rfl hne
  | cons segment segments =>
    have hslash : isSlash .special '/' = true := by decide
    have hread := readPath_joinSegments (hsegments segment (List.mem_cons_self ..))
      (fun s hs => hsegments s (List.mem_cons_of_mem _ hs)) ['/']
    rw [joinSegments_cons, List.cons_append, readPathStart, if_pos hslash, hread]
    rfl

theorem IsNormal.mem (h : IsNormal path) (hc : c ∈ path) : c = '/' ∨ isSegmentChar c = true := by
  obtain ⟨segments, -, hsegments, rfl⟩ := h
  obtain ⟨s, hs, hc⟩ := List.mem_flatMap.1 hc
  rcases List.mem_cons.1 hc with rfl | hc
  · exact Or.inl rfl
  · exact Or.inr ((hsegments s hs).chars c hc)

theorem not_isTabOrNewline (h : c = '/' ∨ isSegmentChar c = true) :
    (!isTabOrNewline c) = true := by
  rw [Bool.not_eq_true', ← Bool.not_eq_true]
  intro htab
  simp only [isTabOrNewline, Bool.or_eq_true, decide_eq_true_eq] at htab
  rcases h with rfl | hchar
  · revert htab
    decide
  · rcases htab with (rfl | rfl) | rfl <;> revert hchar <;> decide

/-- A path in normal form is set as it is. -/
theorem withPath_of_isNormal {u : Url} (hkind : u.kind = .special) (hrigid : u.rigid = false)
    {text : String} (h : IsNormal text.toList) :
    u.withPath text = { u with path := text.toList } := by
  have hfilter : text.toList.filter (fun c => !isTabOrNewline c) = text.toList :=
    List.filter_eq_self.2 fun c hc => not_isTabOrNewline (h.mem hc)
  simp only [withPath, hrigid, hkind, hfilter, readPathStart_of_isNormal h, Bool.false_eq_true,
    if_false]

/-! ## Ends and starts -/

/-- Without the slashes at its end a path consists of some of its segments. -/
theorem dropSuffix_joinSegments (h : ∀ s ∈ segments, IsSegment s) :
    ∃ kept, kept <+: segments ∧
      dropSuffix (· = '/') (joinSegments segments) = joinSegments kept := by
  induction segments using List.reverseRecOn with
  | nil => exact ⟨[], List.prefix_refl _, rfl⟩
  | append_singleton segments last ih =>
    rcases List.eq_nil_or_concat last with rfl | ⟨front, c, rfl⟩
    · obtain ⟨kept, hkept, heq⟩ := ih fun s hs => h s (List.mem_append_left _ hs)
      refine ⟨kept, hkept.trans (List.prefix_append _ _), ?_⟩
      rw [← heq]
      simp [dropSuffix]
    · have hc : c ≠ '/' := by
        rintro rfl
        exact (h _ (List.mem_append_right _ (List.mem_singleton_self _))).notMem (by simp)
      exact ⟨_, List.prefix_refl _, by simp [dropSuffix, hc]⟩

theorem splitAt_dropWhile (cs : List Char) :
    splitAt '/' (cs.dropWhile (· = '/')) ⊆ splitAt '/' cs := by
  induction cs with
  | nil => exact List.Subset.refl _
  | cons c cs ih =>
    by_cases hc : c = '/'
    · rw [List.dropWhile_cons_of_pos (by simpa using hc), splitAt, if_pos hc]
      exact fun s hs => List.mem_cons_of_mem _ (ih hs)
    · rw [List.dropWhile_cons_of_neg (by simpa using hc)]
      exact List.Subset.refl _

/-- A path in normal form goes on with more segments behind its last slashes. -/
theorem IsNormal.extend (h : IsNormal path) (hcs : ∀ s ∈ splitAt '/' cs, IsSegment s) :
    IsNormal (dropSuffix (· = '/') path ++ '/' :: cs) := by
  obtain ⟨segments, -, hsegments, rfl⟩ := h
  obtain ⟨kept, hkept, heq⟩ := dropSuffix_joinSegments hsegments
  refine ⟨kept ++ splitAt '/' cs, by simp [splitAt_ne_nil], ?_, ?_⟩
  · exact List.forall_mem_append.2 ⟨fun s hs => hsegments s (hkept.subset hs), hcs⟩
  · rw [heq, joinSegments_append, joinSegments_splitAt]

end Segments

/-! ## URLs -/

section Urls

variable {cs : List Char} {u : Url}

theorem readFile_scheme (h : readFile cs = .ok u) : u.scheme = "file" := by
  unfold readFile at h
  split at h
  · dsimp only at h
    split at h
    · split at h
      · cases h
        rfl
      · split at h
        · cases h
          rfl
        · obtain ⟨host, -, h⟩ := bind_eq_ok h
          cases h
          rfl
    · cases h
      rfl
  · cases h
    rfl

theorem readBare_scheme (scheme : String) (cs : List Char) :
    (readBare scheme cs).scheme = scheme := by
  unfold readBare
  split <;> rfl

/-- A special URL is what is read behind its authority. -/
theorem parse_eq_finish {text : String} (h : parse text = .ok u) (hkind : u.kind = .special) :
    ∃ authority rest, u = finish u.scheme (some authority) rest := by
  unfold parse at h
  split at h
  · cases h
  · rename_i scheme cs _
    -- other schemes have no special URLs
    cases hscheme : Kind.ofScheme scheme with
    | file =>
      simp only [hscheme] at h
      rw [kind, readFile_scheme h] at hkind
      cases hkind
    | special =>
      simp only [hscheme] at h
      obtain ⟨found, -, h⟩ := bind_eq_ok h
      cases h
      exact ⟨found.1, found.2, rfl⟩
    | other =>
      have hsame : u.scheme = scheme := by
        simp only [hscheme] at h
        split at h
        · obtain ⟨found, -, h⟩ := bind_eq_ok h
          cases h
          rfl
        · cases h
          exact readBare_scheme scheme _
      rw [kind, hsame, hscheme] at hkind
      cases hkind

/-- A special URL has segments, and its path is in normal form. -/
theorem parse_isNormal {text : String} (h : parse text = .ok u) (hkind : u.kind = .special) :
    u.rigid = false ∧ IsNormal u.path := by
  obtain ⟨authority, rest, hu⟩ := parse_eq_finish h hkind
  have hpath : u.path = (readPathStart .special endsPath rest).1 := by
    rw [hu]
    show (readPathStart u.kind endsPath rest).1 = _
    rw [hkind]
  rw [hpath]
  exact ⟨by rw [hu]; rfl, readPathStart_isNormal endsPath rest⟩

end Urls

end PromqlServer.Url
