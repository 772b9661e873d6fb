import PromqlServer.Proofs.Url.Segments

/-!
Paths that never go up. `set_path` of a URL resolves dot segments, so that a path which is put
behind another one may leave it; it does not if none of its segments is a double dot, in any of the
ways to write one (`prefix_withPath`).
-/

namespace PromqlServer.Url

open PromqlServer.Text (splitAt)

/-- The segments of a path before it is read: tabs and line ends do not count, and backslashes are
slashes. -/
def segmentsIn (cs : List Char) : List (List Char) :=
  splitAt '/' ((cs.filter fun c => !isTabOrNewline c).map fun c => if c = '\\' then '/' else c)

/-- No segment leads to the one above it. -/
def Descends (cs : List Char) : Prop := ∀ s ∈ segmentsIn cs, isDoubleDot s = false

instance : DecidablePred Descends := fun _ => List.decidableBAll _ _

/-! ## Parts of a path -/

section Parts

variable {a b cs : List Char}

theorem splitAt_of_notMem {sep : Char} (h : sep ∉ cs) : splitAt sep cs = [cs] := by
  induction cs with
  | nil => rfl
  | cons c cs ih =>
    rw [List.mem_cons, not_or] at h
    rw [splitAt, if_neg (Ne.symm h.1), ih h.2]

theorem splitAt_append (sep : Char) (a b : List Char) :
    splitAt sep (a ++ sep :: b) = splitAt sep a ++ splitAt sep b := by
  induction a with
  | nil => simp [splitAt]
  | cons c a ih =>
    by_cases hc : c = sep
    · rw [List.cons_append, splitAt, if_pos hc, ih, splitAt, if_pos hc, List.cons_append]
    · obtain ⟨first, rest, hsplit⟩ := List.exists_cons_of_ne_nil (splitAt_ne_nil sep a)
      rw [List.cons_append, splitAt, if_neg hc, ih, splitAt, if_neg hc, hsplit]
      rfl

theorem segmentsIn_append (a b : List Char) :
    segmentsIn (a ++ '/' :: b) = segmentsIn a ++ segmentsIn b := by
  have hkept : (!isTabOrNewline '/') = true := by decide
  have hslash : (if '/' = '\\' then '/' else '/') = '/' := by decide
  rw [segmentsIn, List.filter_append, List.filter_cons, if_pos hkept, List.map_append,
    List.map_cons, hslash, splitAt_append]
  rfl

theorem descends_append : Descends (a ++ '/' :: b) ↔ Descends a ∧ Descends b := by
  unfold Descends
  rw [segmentsIn_append, List.forall_mem_append]

end Parts

/-! ## Dots are not encoded -/

section Dots

variable {c x : Char} {cs w form : List Char}

theorem utf8EncodeChar_of_ne_dot (h : c ≠ '.') :
    ∃ first more, String.utf8EncodeChar c = first :: more ∧ first.toNat ≠ 0x2E := by
  have hval : c.val.toNat ≠ 0x2E := fun hval => h (Char.ext (UInt32.toNat_inj.1 hval))
  rw [String.utf8EncodeChar]
  -- one byte or more, by the range of the character; only the first byte matters
  repeat' split
  all_goals
    refine ⟨_, _, rfl, ?_⟩
    rw [UInt8.toNat_ofNat']
    omega

/-- What is encoded begins with a percent sign and does not stand for a dot. -/
theorem encodeChar_of_pathSet (h : pathSet c = true) :
    ∃ high low more, encodeChar pathSet c = '%' :: high :: low :: more ∧
      ¬ (high = '2' ∧ (low = 'e' ∨ low = 'E')) := by
  have hdot : c ≠ '.' := by
    rintro rfl
    revert h
    decide
  obtain ⟨first, more, hbytes, hfirst⟩ := utf8EncodeChar_of_ne_dot hdot
  have hbound : first.toNat < 256 := first.toNat_lt
  refine ⟨upperHex (first.toNat / 16), upperHex (first.toNat % 16), more.flatMap encodeByte, ?_, ?_⟩
  · rw [encodeChar, if_pos h, hbytes, List.flatMap_cons]
    rfl
  · rintro ⟨hhigh, hlow⟩
    have htwo : ∀ n : Fin 16, upperHex n.1 = '2' → n.1 = 2 := by decide
    have hfourteen : ∀ n : Fin 16, upperHex n.1 = 'e' ∨ upperHex n.1 = 'E' → n.1 = 14 := by decide
    have hdiv : first.toNat / 16 = 2 := htwo ⟨first.toNat / 16, by omega⟩ hhigh
    have hmod : first.toNat % 16 = 14 := hfourteen ⟨first.toNat % 16, by omega⟩ hlow
    omega

theorem encode_cons (set : Char → Bool) (c : Char) (cs : List Char) :
    encode set (c :: cs) = encodeChar set c ++ encode set cs := List.flatMap_cons

theorem encode_eq_nil (h : encode pathSet cs = []) : cs = [] := by
  cases cs with
  | nil => rfl
  | cons c cs =>
    rw [encode_cons, List.append_eq_nil_iff] at h
    by_cases hc : pathSet c = true
    · obtain ⟨_, _, _, hencoded, -⟩ := encodeChar_of_pathSet hc
      rw [hencoded] at h
      cases h.1
    · rw [encodeChar, if_neg hc] at h
      cases h.1

/-- Other characters than percent signs stand for themselves. -/
theorem encode_eq_cons (hx : x ≠ '%') (h : encode pathSet cs = x :: w) :
    ∃ rest, cs = x :: rest ∧ encode pathSet rest = w := by
  cases cs with
  | nil => cases h
  | cons c cs =>
    rw [encode_cons] at h
    by_cases hc : pathSet c = true
    · obtain ⟨_, _, _, hencoded, -⟩ := encodeChar_of_pathSet hc
      rw [hencoded] at h
      exact absurd (List.cons.inj h).1.symm hx
    · rw [encodeChar, if_neg hc] at h
      obtain ⟨rfl, rfl⟩ := List.cons.inj h
      exact ⟨cs, rfl, rfl⟩

/-- A percent sign in front of the digits of a dot was there before. -/
theorem encode_eq_percent (hx : x = 'e' ∨ x = 'E') (h : encode pathSet cs = '%' :: '2' :: x :: w) :
    ∃ rest, cs = '%' :: '2' :: x :: rest ∧ encode pathSet rest = w := by
  have hpercent : x ≠ '%' := by
    rintro rfl
    revert hx
    decide
  cases cs with
  | nil => cases h
  | cons c cs =>
    rw [encode_cons] at h
    by_cases hc : pathSet c = true
    · obtain ⟨high, low, more, hencoded, hdot⟩ := encodeChar_of_pathSet hc
      rw [hencoded] at h
      simp only [List.cons_append, List.cons.injEq] at h
      obtain ⟨-, rfl, rfl, -⟩ := h
      exact absurd ⟨rfl, hx⟩ hdot
    · rw [encodeChar, if_neg hc, List.singleton_append, List.cons.injEq] at h
      obtain ⟨rfl, hdigit⟩ := h
      obtain ⟨cs, rfl, hletter⟩ := encode_eq_cons (by decide) hdigit
      obtain ⟨rest, rfl, hrest⟩ := encode_eq_cons hpercent hletter
      exact ⟨rest, rfl, hrest⟩

theorem encode_eq_form (hform : form ∈ dotForms) (h : encode pathSet cs = form ++ w) :
    ∃ rest, cs = form ++ rest ∧ encode pathSet rest = w := by
  simp only [dotForms, List.mem_cons, List.not_mem_nil, or_false] at hform
  rcases hform with rfl | rfl | rfl
  · exact encode_eq_cons (by decide) h
  · exact encode_eq_percent (Or.inl rfl) h
  · exact encode_eq_percent (Or.inr rfl) h

/-- What is a double dot when it is encoded was one before. -/
theorem isDoubleDot_of_encode (h : isDoubleDot (encode pathSet cs) = true) :
    isDoubleDot cs = true := by
  obtain ⟨first, hfirst, h⟩ := List.any_eq_true.1 h
  obtain ⟨second, hsecond, h⟩ := List.any_eq_true.1 h
  obtain ⟨rest, rfl, hrest⟩ := encode_eq_form hfirst (of_decide_eq_true h)
  obtain ⟨last, rfl, hlast⟩ := encode_eq_form hsecond (hrest.trans (List.append_nil _).symm)
  rw [encode_eq_nil hlast, List.append_nil]
  exact List.any_eq_true.2 ⟨first, hfirst, List.any_eq_true.2 ⟨second, hsecond, by simp⟩⟩

end Dots

/-! ## What is read stays behind what was there -/

section Prefixes

variable {path segment raw cs : List Char} {kept : List (List Char)}

theorem prefix_addSegment (h : isDoubleDot segment = false) (path : List Char) (slash : Bool) :
    path <+: addSegment .special path (encode pathSet segment) slash := by
  have hdot : ¬ isDoubleDot (encode pathSet segment) = true := by
    intro hencoded
    rw [isDoubleDot_of_encode hencoded] at h
    cases h
  rw [addSegment, if_neg hdot]
  split
  · split
    · exact List.prefix_rfl
    · exact List.prefix_append ..
  · simp only [List.append_assoc]
    exact List.prefix_append ..

/-- The induction is on what is left to read; `raw` is what was read of the segment. -/
theorem prefix_readPath (hraw : '/' ∉ raw)
    (h : ∀ s ∈ splitAt '/' (raw ++ cs.map fun c => if c = '\\' then '/' else c),
      isDoubleDot s = false) (path : List Char) :
    path <+: (readPath .special (fun _ => false) path (encode pathSet raw).reverse cs).1 := by
  induction cs generalizing path raw with
  | nil =>
    rw [List.map_nil, List.append_nil, splitAt_of_notMem hraw] at h
    rw [readPath, List.reverse_reverse]
    exact prefix_addSegment (h raw (List.mem_singleton_self _)) path false
  | cons c cs ih =>
    rw [readPath, List.reverse_reverse]
    split
    · rename_i hslash
      have hc : (if c = '\\' then '/' else c) = '/' := by
        simp only [isSlash, Bool.or_eq_true, Bool.and_eq_true, decide_eq_true_eq] at hslash
        rcases hslash with rfl | ⟨-, rfl⟩ <;> rfl
      rw [List.map_cons, hc, splitAt_append, splitAt_of_notMem hraw, List.singleton_append,
        List.forall_mem_cons] at h
      exact (prefix_addSegment h.1 path true).trans (ih List.not_mem_nil h.2 _)
    · rename_i hslash
      have hc : c ≠ '/' ∧ c ≠ '\\' := by
        constructor <;> rintro rfl <;> exact hslash rfl
      have hnext : '/' ∉ raw ++ [c] := by simp [hraw, Ne.symm hc.1]
      have hencoded : (encodeChar pathSet c).reverse ++ (encode pathSet raw).reverse
          = (encode pathSet (raw ++ [c])).reverse := by simp [encode]
      rw [if_neg Bool.false_ne_true, hencoded]
      refine ih hnext ?_ path
      rw [List.map_cons, if_neg hc.2, List.append_cons] at h
      exact h

/-- Behind segments in normal form the rest of a path is read. -/
theorem readPathStart_joinSegments (hkept : ∀ s ∈ kept, IsSegment s) (cs : List Char) :
    (readPathStart .special (fun _ => false) (joinSegments kept ++ '/' :: cs)).1
      = (readPath .special (fun _ => false) (joinSegments kept ++ ['/']) [] cs).1 := by
  have hslash : isSlash .special '/' = true := by decide
  cases kept with
  | nil =>
    rw [joinSegments_nil, List.nil_append, readPathStart, if_pos hslash]
    rfl
  | cons segment kept =>
    obtain ⟨hsegment, hkept⟩ := List.forall_mem_cons.1 hkept
    have hsegments : ∀ s ∈ kept ++ [[]], IsSegment s :=
      List.forall_mem_append.2 ⟨hkept, List.forall_mem_singleton.2 isSegment_nil⟩
    have hread := readPath_joinSegments hsegment hsegments ['/']
    have hsplit : segment ++ joinSegments (kept ++ [[]])
        = segment ++ joinSegments kept ++ ['/'] := by simp
    rw [joinSegments_cons, List.cons_append, List.cons_append, readPathStart, if_pos hslash]
    show (readPath .special (fun _ => false) ['/'] [] (segment ++ joinSegments kept ++ '/' :: cs)).1
      = _
    rw [readPath_append .special (by decide), ← hsplit, hread]
    simp

/-- A path that never goes up is set behind segments in normal form. -/
theorem prefix_withPath {u : Url} (hkind : u.kind = .special) (hrigid : u.rigid = false)
    {text : String} (hkept : ∀ s ∈ kept, IsSegment s)
    (htext : text.toList = joinSegments kept ++ '/' :: cs) (h : Descends cs) :
    joinSegments kept ++ ['/'] <+: (u.withPath text).path := by
  have hnormal : IsNormal (joinSegments kept ++ ['/']) :=
    IsNormalBefore.isNormal ⟨kept, hkept, rfl⟩
  have hfilter : text.toList.filter (fun c => !isTabOrNewline c)
      = joinSegments kept ++ '/' :: cs.filter fun c => !isTabOrNewline c := by
    have hall : (joinSegments kept ++ ['/']).filter (fun c => !isTabOrNewline c)
        = joinSegments kept ++ ['/'] :=
      List.filter_eq_self.2 fun c hc => not_isTabOrNewline (hnormal.mem hc)
    rw [htext, List.append_cons, List.filter_append, hall, List.append_assoc,
      List.singleton_append]
  simp only [withPath, hrigid, hkind, hfilter, Bool.false_eq_true, if_false]
  rw [readPathStart_joinSegments hkept]
  exact prefix_readPath List.not_mem_nil h _

end Prefixes

end PromqlServer.Url
