import PromqlServer.Proofs.Document.Sequential
import PromqlServer.Proofs.Document.Liveness

/-!
The part of a document cache that is about the documents of one name. Requests about this name do
the same on it as on the whole cache, and the others do nothing to it, so that of requests one after
the other those that are about one name come to the same by themselves. Only the numbers of the
slots are others: a slot is numbered among those of its name.
-/

namespace PromqlServer.Document

/-! ## Documents numbered by their names -/

/-- How many of the first `k` names are this one. -/
def rank (names : List Uri) (uri : Uri) (k : Nat) : Nat := (names.take k).count uri

/-- A scope with another number right below the given depth. -/
def Scope.renumber (depth : Nat) (f : Nat → Nat) (scope : Scope) : Scope :=
  scope.take depth ++ (scope.drop depth).modifyHead f

def Edition.renumber (depth : Nat) (f : Nat → Nat) (e : Edition) : Edition :=
  { e with slot := f e.slot, scope := Scope.renumber depth f e.scope }

def Request.renumber (depth : Nat) (f : Nat → Nat) : Request → Request
  | .commit e report => .commit (e.renumber depth f) report
  | r => r

def Reply.renumber (depth : Nat) (f : Nat → Nat) : Reply → Reply
  | .opened e => .opened (e.renumber depth f)
  | reply => reply

/-- The request has to do with documents of this name. -/
def Request.touches (uri : Uri) : Request → Bool
  | .track u _ _ | .change u _ _ | .close u | .version u | .snapshot u | .isOpen u => u = uri
  | .commit e _ => e.uri = uri
  | .shutdown => true
  | .size => false

/-- What a reply says about the documents of this name. -/
def Reply.regarding (uri : Uri) : Reply → Reply
  | .drained documents => .drained (documents.filter fun d => d.uri = uri)
  | reply => reply

section Lists

variable {α : Type} {p : α → Bool} {l : List α} {k : Nat} {a : α}

theorem getElem?_filter_take (h : l[k]? = some a) (ha : p a = true) :
    (l.filter p)[(l.take k).countP p]? = some a := by
  induction l generalizing k with
  | nil => simp at h
  | cons b l ih =>
    cases k with
    | zero =>
      simp only [List.getElem?_cons_zero, Option.some.injEq] at h
      simp [h, ha]
    | succ k =>
      have hrest := ih (by simpa using h)
      by_cases hb : p b = true <;> simp [hb, hrest]

theorem filter_modify {f : α → α} (hf : ∀ a, p (f a) = p a) (h : l[k]? = some a) :
    (l.modify k f).filter p
      = if p a then (l.filter p).modify ((l.take k).countP p) f else l.filter p := by
  induction l generalizing k with
  | nil => simp at h
  | cons b l ih =>
    cases k with
    | zero =>
      simp only [List.getElem?_cons_zero, Option.some.injEq] at h
      subst h
      by_cases hb : p b = true <;> simp [hf, hb]
    | succ k =>
      have hrest := ih (by simpa using h)
      by_cases hb : p b = true <;> by_cases ha : p a = true <;> simp [hb, ha, hrest] at hrest ⊢

end Lists

/-- Two documents of one name have different numbers. -/
theorem rank_lt {names : List Uri} {uri : Uri} {k j : Nat} (hk : names[k]? = some uri)
    (hkj : k < j) :
    rank names uri k < rank names uri j := by
  have hnext : rank names uri (k + 1) = rank names uri k + 1 := by
    simp [rank, List.take_add_one, hk]
  have hle : rank names uri (k + 1) ≤ rank names uri j := by
    have hsub : (names.take (k + 1)).Sublist (names.take j) :=
      (List.take_prefix_take_left hkj).sublist
    exact hsub.count_le uri
  omega

theorem rank_inj {names : List Uri} {uri : Uri} {k j : Nat} (hk : names[k]? = some uri)
    (hj : names[j]? = some uri) (h : rank names uri k = rank names uri j) : k = j := by
  rcases Nat.lt_trichotomy k j with hlt | heq | hlt
  · have := rank_lt hk hlt
    omega
  · exact heq
  · have := rank_lt hj hlt
    omega

theorem renumber_editionScope (s : Store) (f : Nat → Nat) (k n : Nat) :
    Scope.renumber s.lifetime.length f (s.editionScope k n) = s.editionScope (f k) n := by
  simp [Scope.renumber, Store.editionScope, Store.slotScope, Scope.child]

/-! ## The part of one name -/

/-- The names of all documents there ever were. -/
def Store.uris (s : Store) : List Uri := s.slots.map Slot.uri

/-- The store `t` is the part of `s` that is about the documents of one name. The list holds the
names of all documents that there will be. -/
structure Part (names : List Uri) (uri : Uri) (s t : Store) : Prop where
  opened : s.uris <+: names
  lifetime : t.lifetime = s.lifetime
  slots : t.slots = s.slots.filter fun d => d.uri = uri
  table : t.table = (s.table.filter fun entry => entry.1 = uri).map fun entry =>
    (entry.1, rank names uri entry.2)
  named : ∀ u k, (u, k) ∈ s.table → s.uris[k]? = some u
  ended : t.isCancelled t.lifetime = s.isCancelled s.lifetime
  closed : ∀ j, t.slotScope j ∈ t.cancelled ↔
    ∃ k, s.uris[k]? = some uri ∧ rank names uri k = j ∧ s.slotScope k ∈ s.cancelled
  replaced : ∀ j n, t.editionScope j n ∈ t.cancelled ↔
    ∃ k, s.uris[k]? = some uri ∧ rank names uri k = j ∧ s.editionScope k n ∈ s.cancelled
  known : ∀ k, (s.slotScope k ∈ s.cancelled ∨ ∃ n, s.editionScope k n ∈ s.cancelled) →
    k < s.slots.length

theorem part_fresh (names : List Uri) (uri : Uri) (lifetime : Scope) :
    Part names uri { lifetime } { lifetime } where
  opened := List.nil_prefix
  lifetime := rfl
  slots := rfl
  table := rfl
  named := by simp
  ended := rfl
  closed := by simp
  replaced := by simp
  known := by simp

section Facts

variable {names : List Uri} {uri : Uri} {s t : Store}

theorem Store.uris_getElem? (s : Store) (k : Nat) : s.uris[k]? = (s.slots[k]?).map Slot.uri := by
  simp [Store.uris]

theorem Part.name (h : Part names uri s t) {k : Nat} {u : Uri} (hk : s.uris[k]? = some u) :
    names[k]? = some u := by
  obtain ⟨rest, hrest⟩ := h.opened
  have hlt : k < s.uris.length := (List.getElem?_eq_some_iff.1 hk).1
  rw [← hrest, List.getElem?_append_left hlt, hk]

theorem Part.rank_eq (h : Part names uri s t) {k : Nat} (hk : k ≤ s.slots.length) :
    rank names uri k = (s.slots.take k).countP fun d => d.uri = uri := by
  obtain ⟨rest, hrest⟩ := h.opened
  have htake : names.take k = (s.slots.take k).map Slot.uri := by
    rw [← hrest, List.take_append_of_le_length (by simpa [Store.uris] using hk), Store.uris,
      List.map_take]
  rw [rank, htake, List.count, List.countP_map]
  congr 1

theorem Part.slot (h : Part names uri s t) {k : Nat} {d : Slot} (hk : s.slots[k]? = some d)
    (hd : d.uri = uri) : t.slots[rank names uri k]? = some d := by
  have hle : k ≤ s.slots.length := Nat.le_of_lt (List.getElem?_eq_some_iff.1 hk).1
  rw [h.rank_eq hle, h.slots]
  exact getElem?_filter_take hk (by simpa using hd)

theorem Part.slotScope_mem (h : Part names uri s t) {k : Nat} (hk : s.uris[k]? = some uri) :
    t.slotScope (rank names uri k) ∈ t.cancelled ↔ s.slotScope k ∈ s.cancelled := by
  rw [h.closed]
  constructor
  · rintro ⟨j, hj, hrank, hmem⟩
    cases rank_inj (h.name hj) (h.name hk) hrank
    exact hmem
  · intro hmem
    exact ⟨k, hk, rfl, hmem⟩

theorem Part.editionScope_mem (h : Part names uri s t) {k : Nat} (hk : s.uris[k]? = some uri)
    (n : Nat) :
    t.editionScope (rank names uri k) n ∈ t.cancelled ↔ s.editionScope k n ∈ s.cancelled := by
  rw [h.replaced]
  constructor
  · rintro ⟨j, hj, hrank, hmem⟩
    cases rank_inj (h.name hj) (h.name hk) hrank
    exact hmem
  · intro hmem
    exact ⟨k, hk, rfl, hmem⟩

theorem Part.isCancelled_slot (h : Part names uri s t) {k : Nat} (hk : s.uris[k]? = some uri) :
    t.isCancelled (t.slotScope (rank names uri k)) = s.isCancelled (s.slotScope k) := by
  rw [Bool.eq_iff_iff, Workspace.isCancelled_slotScope, Workspace.isCancelled_slotScope,
    h.slotScope_mem hk, h.ended]

theorem Part.isCancelled_edition (h : Part names uri s t) {k : Nat} (hk : s.uris[k]? = some uri)
    (n : Nat) : t.isCancelled (t.editionScope (rank names uri k) n)
      = s.isCancelled (s.editionScope k n) := by
  rw [Bool.eq_iff_iff, Workspace.isCancelled_editionScope, Workspace.isCancelled_editionScope,
    h.slotScope_mem hk, h.editionScope_mem hk, h.ended]

theorem Part.lookup (h : Part names uri s t) :
    t.lookup uri = (s.lookup uri).map (rank names uri) := by
  unfold Store.lookup
  rw [h.table, List.find?_map, List.find?_filter, Option.map_map, Option.map_map]
  congr 1
  refine congrArg (fun p => s.table.find? p) (funext fun entry => ?_)
  simp

theorem Part.uri_of_lookup (h : Part names uri s t) {u : Uri} {k : Nat}
    (hk : s.lookup u = some k) : s.uris[k]? = some u :=
  h.named u k (Store.mem_table_of_lookup hk)

theorem Part.document? (h : Part names uri s t) :
    t.document? uri = (s.document? uri).map fun found => (rank names uri found.1, found.2) := by
  unfold Store.document?
  rw [h.lookup]
  cases hk : s.lookup uri with
  | none => rfl
  | some k =>
    have huri := h.uri_of_lookup hk
    rw [Store.uris_getElem?] at huri
    obtain ⟨d, hd, hu⟩ := Option.map_eq_some_iff.1 huri
    simp [hd, h.slot hd hu]

end Facts

/-! ## Operations on a part -/

section Operations

variable {names : List Uri} {uri : Uri} {s t : Store}

theorem Store.uris_modifySlot (s : Store) (k : Nat) {f : Slot → Slot}
    (hf : ∀ d, (f d).uri = d.uri) : (s.modifySlot k f).uris = s.uris := by
  refine List.ext_getElem? fun j => ?_
  rw [uris_getElem?, uris_getElem?, getElem?_modifySlot, Option.map_map]
  congr 1
  funext d
  by_cases hkj : k = j <;> simp [hkj, hf]

theorem Part.modify (h : Part names uri s t) {k : Nat} {d : Slot} {f : Slot → Slot}
    (hk : s.slots[k]? = some d) (hd : d.uri = uri) (hf : ∀ d, (f d).uri = d.uri) :
    Part names uri (s.modifySlot k f) (t.modifySlot (rank names uri k) f) where
  opened := by rw [s.uris_modifySlot k hf]; exact h.opened
  lifetime := h.lifetime
  slots := by
    have hle : k ≤ s.slots.length := Nat.le_of_lt (List.getElem?_eq_some_iff.1 hk).1
    rw [Store.modifySlot, Store.modifySlot, filter_modify (fun a => by rw [hf]) hk, h.slots,
      h.rank_eq hle, if_pos (by simpa using hd)]
  table := h.table
  named := by rw [s.uris_modifySlot k hf]; exact h.named
  ended := h.ended
  closed := by rw [s.uris_modifySlot k hf]; exact h.closed
  replaced := by rw [s.uris_modifySlot k hf]; exact h.replaced
  known := by rw [Store.length_modifySlot]; exact h.known

theorem Part.modify_other (h : Part names uri s t) {k : Nat} {d : Slot} {f : Slot → Slot}
    (hk : s.slots[k]? = some d) (hd : d.uri ≠ uri) (hf : ∀ d, (f d).uri = d.uri) :
    Part names uri (s.modifySlot k f) t where
  opened := by rw [s.uris_modifySlot k hf]; exact h.opened
  lifetime := h.lifetime
  slots := by
    rw [Store.modifySlot, filter_modify (fun a => by rw [hf]) hk, h.slots,
      if_neg (by simpa using hd)]
  table := h.table
  named := by rw [s.uris_modifySlot k hf]; exact h.named
  ended := h.ended
  closed := by rw [s.uris_modifySlot k hf]; exact h.closed
  replaced := by rw [s.uris_modifySlot k hf]; exact h.replaced
  known := by rw [Store.length_modifySlot]; exact h.known

theorem Store.slot_modifySlot {k : Nat} {d : Slot} (f : Slot → Slot) (hk : s.slots[k]? = some d) :
    (s.modifySlot k f).slots[k]? = some (f d) := by
  rw [getElem?_modifySlot, hk]
  simp

theorem Part.modify_release (h : Part names uri s t) {k : Nat} {d : Slot} {f : Slot → Slot}
    (hk : s.slots[k]? = some d) (hd : d.uri = uri) (hf : ∀ d, (f d).uri = d.uri) :
    Part names uri ((s.modifySlot k f).release k)
      ((t.modifySlot (rank names uri k) f).release (rank names uri k)) :=
  (h.modify hk hd hf).modify (Store.slot_modifySlot f hk) ((hf d).trans hd) fun _ => rfl

theorem Part.modify_release_other (h : Part names uri s t) {k : Nat} {d : Slot} {f : Slot → Slot}
    (hk : s.slots[k]? = some d) (hd : d.uri ≠ uri) (hf : ∀ d, (f d).uri = d.uri) :
    Part names uri ((s.modifySlot k f).release k) t :=
  (h.modify_other hk hd hf).modify_other (Store.slot_modifySlot f hk) (by rwa [hf d]) fun _ => rfl

theorem Part.known_cancel (h : Part names uri s t) {x : Scope}
    (hknown : ∀ k, (s.slotScope k = x ∨ ∃ n, s.editionScope k n = x) → k < s.slots.length) (k : Nat)
    (hk : (s.cancel x).slotScope k ∈ (s.cancel x).cancelled ∨
      ∃ n, (s.cancel x).editionScope k n ∈ (s.cancel x).cancelled) :
    k < (s.cancel x).slots.length := by
  rcases hk with hk | ⟨n, hk⟩
  · rcases List.mem_cons.1 hk with hk | hk
    · exact hknown k (Or.inl hk)
    · exact h.known k (Or.inl hk)
  · rcases List.mem_cons.1 hk with hk | hk
    · exact hknown k (Or.inr ⟨n, hk⟩)
    · exact h.known k (Or.inr ⟨n, hk⟩)

/-- A scope that regards the name is cancelled in the whole and in the part. -/
theorem Part.cancel (h : Part names uri s t) {x y : Scope}
    (hended : y.isPrefixOf s.lifetime = x.isPrefixOf s.lifetime)
    (hclosed : ∀ j, t.slotScope j = y ↔
      ∃ k, s.uris[k]? = some uri ∧ rank names uri k = j ∧ s.slotScope k = x)
    (hreplaced : ∀ j n, t.editionScope j n = y ↔
      ∃ k, s.uris[k]? = some uri ∧ rank names uri k = j ∧ s.editionScope k n = x)
    (hknown : ∀ k, (s.slotScope k = x ∨ ∃ n, s.editionScope k n = x) → k < s.slots.length) :
    Part names uri (s.cancel x) (t.cancel y) where
  opened := h.opened
  lifetime := h.lifetime
  slots := h.slots
  table := h.table
  named := h.named
  ended := by
    have hold := h.ended
    simp only [Store.isCancelled, Store.cancel, Scope.isCancelled, List.any_cons, h.lifetime]
      at hold ⊢
    rw [hended, hold]
  closed j := by
    refine List.mem_cons.trans ((or_congr (hclosed j) (h.closed j)).trans ?_)
    rw [← exists_or]
    refine exists_congr fun k => ?_
    rw [← and_or_left, ← and_or_left]
    exact and_congr_right fun _ => and_congr_right fun _ => List.mem_cons.symm
  replaced j n := by
    refine List.mem_cons.trans ((or_congr (hreplaced j n) (h.replaced j n)).trans ?_)
    rw [← exists_or]
    refine exists_congr fun k => ?_
    rw [← and_or_left, ← and_or_left]
    exact and_congr_right fun _ => and_congr_right fun _ => List.mem_cons.symm
  known := h.known_cancel hknown

/-- A scope that regards another name is not seen in the part. -/
theorem Part.cancel_other (h : Part names uri s t) {x : Scope}
    (hended : x.isPrefixOf s.lifetime = false)
    (hclosed : ∀ k, s.uris[k]? = some uri → s.slotScope k ≠ x)
    (hreplaced : ∀ k n, s.uris[k]? = some uri → s.editionScope k n ≠ x)
    (hknown : ∀ k, (s.slotScope k = x ∨ ∃ n, s.editionScope k n = x) → k < s.slots.length) :
    Part names uri (s.cancel x) t where
  opened := h.opened
  lifetime := h.lifetime
  slots := h.slots
  table := h.table
  named := h.named
  ended := by
    rw [h.ended]
    simp [Store.isCancelled, Store.cancel, Scope.isCancelled, hended]
  closed j := by
    refine (h.closed j).trans (exists_congr fun k => and_congr_right fun hk =>
      and_congr_right fun _ => ?_)
    exact ⟨List.mem_cons_of_mem _, fun hm => (List.mem_cons.1 hm).resolve_left (hclosed k hk)⟩
  replaced j n := by
    refine (h.replaced j n).trans (exists_congr fun k => and_congr_right fun hk =>
      and_congr_right fun _ => ?_)
    exact ⟨List.mem_cons_of_mem _, fun hm => (List.mem_cons.1 hm).resolve_left (hreplaced k n hk)⟩
  known := h.known_cancel hknown

theorem Store.lt_of_uris {k : Nat} {u : Uri} (hk : s.uris[k]? = some u) : k < s.slots.length := by
  have := (List.getElem?_eq_some_iff.1 hk).1
  simpa [Store.uris] using this

theorem Store.editionScope_isPrefixOf (s : Store) (k n : Nat) :
    (s.editionScope k n).isPrefixOf s.lifetime = false := by
  rw [← Bool.not_eq_true, List.isPrefixOf_iff_prefix]
  exact Scope.not_grandchild_prefix

theorem Store.slotScope_isPrefixOf (s : Store) (k : Nat) :
    (s.slotScope k).isPrefixOf s.lifetime = false := by
  rw [← Bool.not_eq_true, List.isPrefixOf_iff_prefix]
  exact Scope.not_child_prefix

theorem Store.known_edition {k : Nat} {u : Uri} (hk : s.uris[k]? = some u) (n j : Nat)
    (hj : s.slotScope j = s.editionScope k n ∨ ∃ m, s.editionScope j m = s.editionScope k n) :
    j < s.slots.length := by
  rcases hj with hj | ⟨m, hj⟩
  · exact absurd hj (Workspace.slotScope_ne_editionScope s j k n)
  · rw [(Workspace.editionScope_inj hj).1]
    exact lt_of_uris hk

theorem Store.known_slot {k : Nat} {u : Uri} (hk : s.uris[k]? = some u) (j : Nat)
    (hj : s.slotScope j = s.slotScope k ∨ ∃ m, s.editionScope j m = s.slotScope k) :
    j < s.slots.length := by
  rcases hj with hj | ⟨m, hj⟩
  · rw [Scope.child_inj.1 hj]
    exact lt_of_uris hk
  · exact absurd hj.symm (Workspace.slotScope_ne_editionScope s k j m)

theorem Part.cancel_edition (h : Part names uri s t) {k : Nat} (hk : s.uris[k]? = some uri)
    (n : Nat) :
    Part names uri (s.cancel (s.editionScope k n))
      (t.cancel (t.editionScope (rank names uri k) n)) := by
  refine h.cancel ?_ (fun j => ?_) (fun j m => ?_) (Store.known_edition hk n)
  · rw [s.editionScope_isPrefixOf, ← h.lifetime, t.editionScope_isPrefixOf]
  · constructor
    · intro heq
      exact absurd heq (Workspace.slotScope_ne_editionScope t j _ n)
    · rintro ⟨i, _, _, heq⟩
      exact absurd heq (Workspace.slotScope_ne_editionScope s i k n)
  · constructor
    · intro heq
      obtain ⟨rfl, rfl⟩ := Workspace.editionScope_inj heq
      exact ⟨k, hk, rfl, rfl⟩
    · rintro ⟨i, _, rfl, heq⟩
      obtain ⟨rfl, rfl⟩ := Workspace.editionScope_inj heq
      rfl

theorem Part.cancel_slot (h : Part names uri s t) {k : Nat} (hk : s.uris[k]? = some uri) :
    Part names uri (s.cancel (s.slotScope k)) (t.cancel (t.slotScope (rank names uri k))) := by
  refine h.cancel ?_ (fun j => ?_) (fun j m => ?_) (Store.known_slot hk)
  · rw [s.slotScope_isPrefixOf, ← h.lifetime, t.slotScope_isPrefixOf]
  · constructor
    · intro heq
      cases Scope.child_inj.1 heq
      exact ⟨k, hk, rfl, rfl⟩
    · rintro ⟨i, _, rfl, heq⟩
      cases Scope.child_inj.1 heq
      rfl
  · constructor
    · intro heq
      exact absurd heq.symm (Workspace.slotScope_ne_editionScope t _ j m)
    · rintro ⟨i, _, _, heq⟩
      exact absurd heq.symm (Workspace.slotScope_ne_editionScope s k i m)

/-- The lifetime is cancelled, or a scope above it. -/
theorem Part.cancel_above (h : Part names uri s t) {x : Scope} (hx : x <+: s.lifetime) :
    Part names uri (s.cancel x) (t.cancel x) := by
  have hslot : ∀ {s : Store} (j : Nat), x <+: s.lifetime → s.slotScope j ≠ x := fun j hx =>
    (Workspace.ne_of_prefix_lifetime hx j 0).1.symm
  have hedition : ∀ {s : Store} (j n : Nat), x <+: s.lifetime → s.editionScope j n ≠ x :=
    fun j n hx => (Workspace.ne_of_prefix_lifetime hx j n).2.symm
  have hx' : x <+: t.lifetime := by rwa [h.lifetime]
  refine h.cancel rfl (fun j => ?_) (fun j m => ?_) fun k hk => ?_
  · constructor
    · intro heq
      exact absurd heq (hslot j hx')
    · rintro ⟨i, _, _, heq⟩
      exact absurd heq (hslot i hx)
  · constructor
    · intro heq
      exact absurd heq (hedition j m hx')
    · rintro ⟨i, _, _, heq⟩
      exact absurd heq (hedition i m hx)
  · rcases hk with hk | ⟨n, hk⟩
    · exact absurd hk (hslot k hx)
    · exact absurd hk (hedition k n hx)

theorem Part.cancel_edition_other (h : Part names uri s t) {k : Nat} {u : Uri}
    (hk : s.uris[k]? = some u) (hu : u ≠ uri) (n : Nat) :
    Part names uri (s.cancel (s.editionScope k n)) t := by
  refine h.cancel_other (s.editionScope_isPrefixOf k n) (fun j _ => ?_) (fun j m hj heq => ?_)
    (Store.known_edition hk n)
  · exact Workspace.slotScope_ne_editionScope s j k n
  · rw [(Workspace.editionScope_inj heq).1, hk] at hj
    exact hu (Option.some.inj hj)

theorem Part.cancel_slot_other (h : Part names uri s t) {k : Nat} {u : Uri}
    (hk : s.uris[k]? = some u) (hu : u ≠ uri) : Part names uri (s.cancel (s.slotScope k)) t := by
  refine h.cancel_other (s.slotScope_isPrefixOf k) (fun j hj heq => ?_) (fun j m _ heq => ?_)
    (Store.known_slot hk)
  · rw [Scope.child_inj.1 heq, hk] at hj
    exact hu (Option.some.inj hj)
  · exact Workspace.slotScope_ne_editionScope s k j m heq.symm

end Operations

/-! ## Requests on a part -/

def Work.renumber (depth : Nat) (f : Nat → Nat) : Work → Work
  | .commit e report => .commit (e.renumber depth f) report
  | work => work

section Requests

variable {names : List Uri} {uri : Uri} {s t : Store}

theorem Store.uris_of_slot {k : Nat} {d : Slot} (hk : s.slots[k]? = some d) :
    s.uris[k]? = some d.uri := by
  rw [uris_getElem?, hk]
  rfl

/-- Work on a document of the name. The scope of an edition is one of its document. -/
theorem Part.attend (h : Part names uri s t) {k : Nat} {d : Slot} (hk : s.slots[k]? = some d)
    (hd : d.uri = uri) (work : Work)
    (hwork : ∀ e report, work = .commit e report → ∃ n, e.scope = s.editionScope k n) :
    Part names uri (s.attend k d work).1
      (t.attend (rank names uri k) d (work.renumber s.lifetime.length (rank names uri))).1 ∧
    (t.attend (rank names uri k) d (work.renumber s.lifetime.length (rank names uri))).2
      = (s.attend k d work).2.renumber s.lifetime.length (rank names uri) := by
  have huri : s.uris[k]? = some uri := hd ▸ Store.uris_of_slot hk
  have hclosed := h.isCancelled_slot huri
  cases work with
  | close => exact ⟨h, rfl⟩
  | version =>
    simp only [Work.renumber, Store.attend, hclosed]
    split
    · exact ⟨h, rfl⟩
    · exact ⟨h, rfl⟩
  | snapshot =>
    simp only [Work.renumber, Store.attend, hclosed]
    split
    · exact ⟨h, rfl⟩
    · exact ⟨h, rfl⟩
  | change content version =>
    simp only [Work.renumber, Store.attend, hclosed]
    split
    · exact ⟨h, rfl⟩
    · split
      · exact ⟨h, rfl⟩
      · have hcancel := h.cancel_edition huri d.revision
        refine ⟨hcancel.modify_release hk hd fun _ => rfl, ?_⟩
        have hscope : t.editionScope (rank names uri k) (d.revision + 1)
            = Scope.renumber s.lifetime.length (rank names uri)
              (s.editionScope k (d.revision + 1)) := by
          rw [renumber_editionScope, Store.editionScope, Store.slotScope, h.lifetime]
          rfl
        exact congrArg (fun scope => Reply.opened
          ⟨d.uri, version, content, rank names uri k, scope⟩) hscope
  | commit e report =>
    obtain ⟨n, hscope⟩ := hwork e report rfl
    have hcancelled : t.isCancelled (Scope.renumber s.lifetime.length (rank names uri) e.scope)
        = s.isCancelled e.scope := by
      rw [hscope, renumber_editionScope, ← h.isCancelled_edition huri, Store.editionScope,
        Store.slotScope, ← h.lifetime]
      rfl
    simp only [Work.renumber, Edition.renumber, Store.attend, hcancelled]
    split
    · exact ⟨h, rfl⟩
    · exact ⟨h.modify_release hk hd fun _ => rfl, rfl⟩

/-- Work on a document of another name. -/
theorem Part.attend_other (h : Part names uri s t) {k : Nat} {d : Slot}
    (hk : s.slots[k]? = some d) (hd : d.uri ≠ uri) (work : Work) :
    Part names uri (s.attend k d work).1 t := by
  cases work with
  | close => exact h
  | version =>
    simp only [Store.attend]
    split <;> exact h
  | snapshot =>
    simp only [Store.attend]
    split <;> exact h
  | change content version =>
    simp only [Store.attend]
    split
    · exact h
    · split
      · exact h
      · have hcancel := h.cancel_edition_other (Store.uris_of_slot hk) hd d.revision
        exact hcancel.modify_release_other hk hd fun _ => rfl
  | commit e report =>
    simp only [Store.attend]
    split
    · exact h
    · exact h.modify_release_other hk hd fun _ => rfl

theorem Store.uris_withSlot (s : Store) (u : Uri) (content : String) (version : Int) :
    (s.withSlot u content version).uris = s.uris ++ [u] := by
  simp [Store.uris, Store.withSlot]

/-- The scopes that are cancelled are those of documents that there were before. -/
theorem Part.uris_concat (h : Part names uri s t) {k : Nat} (u : Uri)
    (hk : s.slotScope k ∈ s.cancelled ∨ ∃ n, s.editionScope k n ∈ s.cancelled) :
    (s.uris ++ [u])[k]? = s.uris[k]? := by
  have hlt := h.known k hk
  exact List.getElem?_append_left (by simpa [Store.uris] using hlt)

theorem Part.length_eq (h : Part names uri s t) :
    rank names uri s.slots.length = t.slots.length := by
  rw [h.rank_eq (Nat.le_refl _), List.take_length, h.slots, List.countP_eq_length_filter]

theorem Part.closed_concat (h : Part names uri s t) (u : Uri) (j : Nat) :
    t.slotScope j ∈ t.cancelled ↔ ∃ k, (s.uris ++ [u])[k]? = some uri ∧
      rank names uri k = j ∧ s.slotScope k ∈ s.cancelled := by
  rw [h.closed]
  constructor
  · rintro ⟨k, hk, hrank, hmem⟩
    exact ⟨k, by rw [h.uris_concat u (Or.inl hmem), hk], hrank, hmem⟩
  · rintro ⟨k, hk, hrank, hmem⟩
    exact ⟨k, by rw [← h.uris_concat u (Or.inl hmem), hk], hrank, hmem⟩

theorem Part.replaced_concat (h : Part names uri s t) (u : Uri) (j n : Nat) :
    t.editionScope j n ∈ t.cancelled ↔ ∃ k, (s.uris ++ [u])[k]? = some uri ∧
      rank names uri k = j ∧ s.editionScope k n ∈ s.cancelled := by
  rw [h.replaced]
  constructor
  · rintro ⟨k, hk, hrank, hmem⟩
    exact ⟨k, by rw [h.uris_concat u (Or.inr ⟨n, hmem⟩), hk], hrank, hmem⟩
  · rintro ⟨k, hk, hrank, hmem⟩
    exact ⟨k, by rw [← h.uris_concat u (Or.inr ⟨n, hmem⟩), hk], hrank, hmem⟩

theorem Part.named_concat (h : Part names uri s t) (v : Uri) (u : Uri) (k : Nat)
    (hmem : (u, k) ∈ s.table ++ [(v, s.slots.length)]) : (s.uris ++ [v])[k]? = some u := by
  rcases List.mem_append.1 hmem with hmem | hmem
  · have hk := h.named u k hmem
    have hlt := (List.getElem?_eq_some_iff.1 hk).1
    rw [List.getElem?_append_left hlt, hk]
  · cases List.mem_singleton.1 hmem
    simp [Store.uris]

theorem Part.known_concat (h : Part names uri s t) (u : Uri) (content : String) (version : Int)
    (k : Nat) (hk : s.slotScope k ∈ s.cancelled ∨ ∃ n, s.editionScope k n ∈ s.cancelled) :
    k < (s.withSlot u content version).slots.length := by
  have hlt := h.known k hk
  simp only [Store.withSlot, List.length_append, List.length_singleton]
  omega

theorem Part.withSlot (h : Part names uri s t) (content : String) (version : Int)
    (hnames : s.uris ++ [uri] <+: names) :
    Part names uri (s.withSlot uri content version) (t.withSlot uri content version) where
  opened := by rw [Store.uris_withSlot]; exact hnames
  lifetime := h.lifetime
  slots := by simp [Store.withSlot, h.slots]
  table := by simp [Store.withSlot, h.table, h.length_eq]
  named := by rw [Store.uris_withSlot]; exact h.named_concat uri
  ended := h.ended
  closed := by rw [Store.uris_withSlot]; exact h.closed_concat uri
  replaced := by rw [Store.uris_withSlot]; exact h.replaced_concat uri
  known := h.known_concat uri content version

theorem Part.withSlot_other (h : Part names uri s t) {u : Uri} (hu : u ≠ uri) (content : String)
    (version : Int) (hnames : s.uris ++ [u] <+: names) :
    Part names uri (s.withSlot u content version) t where
  opened := by rw [Store.uris_withSlot]; exact hnames
  lifetime := h.lifetime
  slots := by simp [Store.withSlot, h.slots, hu]
  table := by simp [Store.withSlot, h.table, hu]
  named := by rw [Store.uris_withSlot]; exact h.named_concat u
  ended := h.ended
  closed := by rw [Store.uris_withSlot]; exact h.closed_concat u
  replaced := by rw [Store.uris_withSlot]; exact h.replaced_concat u
  known := h.known_concat u content version

/-- Entries of the table are taken out, the same ones of the name in the whole and in the part. -/
theorem Part.filter_table (h : Part names uri s t) (p q : Uri → Bool) (hpq : q uri = p uri) :
    Part names uri { s with table := s.table.filter fun entry => p entry.1 }
      { t with table := t.table.filter fun entry => q entry.1 } where
  opened := h.opened
  lifetime := h.lifetime
  slots := h.slots
  table := by
    simp only [h.table, List.filter_map, List.filter_filter, Function.comp_def]
    congr 1
    refine congrArg (fun p => s.table.filter p) (funext fun entry => ?_)
    by_cases hu : entry.1 = uri <;> simp [hu, hpq]
  named := fun u k hmem => h.named u k (List.mem_filter.1 hmem).1
  ended := h.ended
  closed := h.closed
  replaced := h.replaced
  known := h.known

theorem Part.closeAll (h : Part names uri s t) : t.closeAll (t.table.map Prod.snd)
    = (s.closeAll (s.table.map Prod.snd)).filter fun d => d.uri = uri := by
  rw [h.table]
  -- one entry after the other, each of which names a slot
  have hentries : ∀ l : List (Uri × Nat), (∀ entry ∈ l, entry ∈ s.table) →
      t.closeAll (((l.filter fun entry => entry.1 = uri).map fun entry =>
        (entry.1, rank names uri entry.2)).map Prod.snd)
        = (s.closeAll (l.map Prod.snd)).filter fun d => d.uri = uri := by
    intro l hl
    induction l with
    | nil => rfl
    | cons entry l ih =>
      obtain ⟨u, k⟩ := entry
      have hrest := ih fun e he => hl e (List.mem_cons_of_mem _ he)
      have hk := h.named u k (hl _ (List.mem_cons_self ..))
      rw [Store.uris_getElem?] at hk
      obtain ⟨d, hd, rfl⟩ := Option.map_eq_some_iff.1 hk
      rw [List.map_cons (l := l), Store.closeAll_cons hd, List.filter_cons, List.filter_cons]
      by_cases hu : d.uri = uri
      · have hclose : d.close.uri = uri := hu
        simp only [hu, hclose, decide_true, if_true, List.map_cons]
        rw [Store.closeAll_cons (h.slot hd hu), hrest]
      · have hclose : ¬ d.close.uri = uri := hu
        simp only [hu, hclose, decide_false]
        exact hrest
  exact hentries s.table fun _ he => he

theorem Part.track (h : Part names uri s t) (content : String) (version : Int)
    (hnames : (s.track uri content version).1.uris <+: names) :
    Part names uri (s.track uri content version).1 (t.track uri content version).1 ∧
    (t.track uri content version).2
      = (s.track uri content version).2.renumber s.lifetime.length (rank names uri) := by
  have hlook : (t.lookup uri).isSome = (s.lookup uri).isSome := by
    rw [h.lookup, Option.isSome_map]
  unfold Store.track at hnames ⊢
  rw [hlook, h.ended]
  by_cases hopen : (s.lookup uri).isSome = true
  · simp only [hopen, if_true]
    exact ⟨h, rfl⟩
  by_cases hover : s.isCancelled s.lifetime = true
  · simp only [hopen, hover, if_true]
    exact ⟨h, rfl⟩
  · simp only [hopen, hover, Bool.false_eq_true, if_false] at hnames ⊢
    refine ⟨h.withSlot content version (by rwa [← Store.uris_withSlot]), ?_⟩
    have hscope : t.editionScope t.slots.length 0 = Scope.renumber s.lifetime.length
        (rank names uri) (s.editionScope s.slots.length 0) := by
      rw [renumber_editionScope, h.length_eq, Store.editionScope, Store.slotScope, h.lifetime]
      rfl
    simp only [Reply.renumber, Edition.renumber, h.length_eq, hscope]

theorem Part.track_other (h : Part names uri s t) {u : Uri} (hu : u ≠ uri) (content : String)
    (version : Int) (hnames : (s.track u content version).1.uris <+: names) :
    Part names uri (s.track u content version).1 t := by
  unfold Store.track at hnames ⊢
  by_cases hopen : (s.lookup u).isSome = true
  · simp only [hopen, if_true]
    exact h
  by_cases hover : s.isCancelled s.lifetime = true
  · simp only [hopen, hover, if_true]
    exact h
  · simp only [hopen, hover, Bool.false_eq_true, if_false] at hnames ⊢
    exact h.withSlot_other hu content version (by rwa [← Store.uris_withSlot])

theorem Store.slot_of_document? {u : Uri} {k : Nat} {d : Slot} (hk : s.document? u = some (k, d)) :
    s.lookup u = some k ∧ s.slots[k]? = some d := by
  obtain ⟨j, hj, hd⟩ := Option.bind_eq_some_iff.1 hk
  obtain ⟨d', hd', heq⟩ := Option.map_eq_some_iff.1 hd
  cases heq
  exact ⟨hj, hd'⟩

theorem Part.uri_of_document? (h : Part names uri s t) {u : Uri} {k : Nat} {d : Slot}
    (hk : s.document? u = some (k, d)) : d.uri = u := by
  obtain ⟨hlook, hd⟩ := Store.slot_of_document? hk
  have huri := h.uri_of_lookup hlook
  rw [Store.uris_of_slot hd] at huri
  exact Option.some.inj huri

theorem Part.visit (h : Part names uri s t) {work : Work}
    (hwork : ∀ e report, work ≠ .commit e report) :
    Part names uri (s.visit uri work).1 (t.visit uri work).1 ∧
    (t.visit uri work).2 = (s.visit uri work).2.renumber s.lifetime.length (rank names uri) := by
  unfold Store.visit
  rw [h.document?]
  cases hk : s.document? uri with
  | none => exact ⟨h, rfl⟩
  | some found =>
    obtain ⟨k, d⟩ := found
    have hd := h.uri_of_document? hk
    have hattend := h.attend (Store.slot_of_document? hk).2 hd work fun e report he =>
      absurd he (hwork e report)
    have hsame : work.renumber s.lifetime.length (rank names uri) = work := by
      cases work with
      | commit e report => exact absurd rfl (hwork e report)
      | _ => rfl
    rwa [hsame] at hattend

theorem Part.visit_other (h : Part names uri s t) {u : Uri} (hu : u ≠ uri) (work : Work) :
    Part names uri (s.visit u work).1 t := by
  unfold Store.visit
  cases hk : s.document? u with
  | none => exact h
  | some found =>
    obtain ⟨k, d⟩ := found
    exact h.attend_other (Store.slot_of_document? hk).2 (by rwa [h.uri_of_document? hk]) work

/-- A commit is for an edition of a document that there is. -/
def Request.Fits (s : Store) : Request → Prop
  | .commit e _ => s.uris[e.slot]? = some e.uri ∧ ∃ n, e.scope = s.editionScope e.slot n
  | _ => True

theorem Store.attend_regarding (s : Store) (k : Nat) (d : Slot) (work : Work) (uri : Uri) :
    (s.attend k d work).2.regarding uri = (s.attend k d work).2 := by
  cases work with
  | close => rfl
  | change content version =>
    simp only [Store.attend]
    split
    · rfl
    · split <;> rfl
  | version | snapshot | commit =>
    simp only [Store.attend]
    split <;> rfl

theorem Store.visit_regarding (s : Store) (u : Uri) (work : Work) (uri : Uri) :
    (s.visit u work).2.regarding uri = (s.visit u work).2 := by
  unfold Store.visit
  split
  · rfl
  · exact attend_regarding s _ _ work uri

theorem Store.track_regarding (s : Store) (u : Uri) (content : String) (version : Int) (uri : Uri) :
    (s.track u content version).2.regarding uri = (s.track u content version).2 := by
  unfold Store.track
  split
  · rfl
  · split <;> rfl

/-- A request about the name does and returns on the part what it does and returns on the whole. -/
theorem Part.perform (h : Part names uri s t) {r : Request} (hr : r.Fits s)
    (hnames : (s.perform r).1.uris <+: names) (htouches : r.touches uri = true) :
    Part names uri (s.perform r).1
      (t.perform (r.renumber s.lifetime.length (rank names uri))).1 ∧
    (t.perform (r.renumber s.lifetime.length (rank names uri))).2
      = ((s.perform r).2.regarding uri).renumber s.lifetime.length (rank names uri) := by
  cases r with
  | size => cases htouches
  | track u content version =>
    cases of_decide_eq_true htouches
    rw [Store.perform, Store.track_regarding]
    exact h.track content version hnames
  | change u content version =>
    cases of_decide_eq_true htouches
    rw [Store.perform, Store.visit_regarding]
    exact h.visit (by simp)
  | version u =>
    cases of_decide_eq_true htouches
    rw [Store.perform, Store.visit_regarding]
    exact h.visit (by simp)
  | snapshot u =>
    cases of_decide_eq_true htouches
    rw [Store.perform, Store.visit_regarding]
    exact h.visit (by simp)
  | isOpen u =>
    cases of_decide_eq_true htouches
    refine ⟨h, ?_⟩
    simp [Store.perform, Request.renumber, Reply.regarding, Reply.renumber, h.lookup]
  | close u =>
    cases of_decide_eq_true htouches
    simp only [Store.perform, Request.renumber, h.document?]
    cases hk : s.document? uri with
    | none => exact ⟨h, rfl⟩
    | some found =>
      obtain ⟨k, d⟩ := found
      have hremove := h.filter_table (fun u => u ≠ uri) (fun u => u ≠ uri) rfl
      have huri : s.uris[k]? = some uri := h.uri_of_lookup (Store.slot_of_document? hk).1
      exact ⟨hremove.cancel_slot huri, rfl⟩
  | commit e report =>
    obtain ⟨huri, hscope⟩ := hr
    have hu : e.uri = uri := of_decide_eq_true htouches
    have hslot := huri
    rw [Store.uris_getElem?] at hslot
    obtain ⟨d, hd, hdu⟩ := Option.map_eq_some_iff.1 hslot
    have hattend := h.attend hd (hdu.trans hu) (.commit e report) fun _ _ heq => by
      cases heq
      exact hscope
    have hwhole : s.perform (.commit e report) = s.attend e.slot d (.commit e report) := by
      simp only [Store.perform, hd]
    have hpart : t.perform (Request.renumber s.lifetime.length (rank names uri) (.commit e report))
        = t.attend (rank names uri e.slot) d
          (Work.renumber s.lifetime.length (rank names uri) (.commit e report)) := by
      simp only [Store.perform, Request.renumber, Edition.renumber, Work.renumber,
        h.slot hd (hdu.trans hu)]
    rw [hwhole, hpart, Store.attend_regarding]
    exact hattend
  | shutdown =>
    have hcancel : Part names uri (s.cancel s.lifetime) (t.cancel t.lifetime) := by
      rw [h.lifetime]
      exact h.cancel_above List.prefix_rfl
    have hempty := hcancel.filter_table (fun _ => false) (fun _ => false) rfl
    have hnone : ∀ table : List (Uri × Nat), table.filter (fun _ => false) = [] := by simp
    rw [hnone, hnone] at hempty
    refine ⟨hempty, ?_⟩
    simp only [Store.perform, Request.renumber, Reply.regarding, Reply.renumber, h.closeAll]

/-- A request about other names does nothing to the part. -/
theorem Part.perform_other (h : Part names uri s t) {r : Request} (hr : r.Fits s)
    (hnames : (s.perform r).1.uris <+: names) (htouches : r.touches uri = false) :
    Part names uri (s.perform r).1 t := by
  cases r with
  | size => exact h
  | isOpen u => exact h
  | shutdown => cases htouches
  | track u content version =>
    exact h.track_other (of_decide_eq_false htouches) content version hnames
  | change u content version => exact h.visit_other (of_decide_eq_false htouches) _
  | version u => exact h.visit_other (of_decide_eq_false htouches) _
  | snapshot u => exact h.visit_other (of_decide_eq_false htouches) _
  | close u =>
    have hu : u ≠ uri := of_decide_eq_false htouches
    simp only [Store.perform]
    cases hk : s.document? u with
    | none => exact h
    | some found =>
      obtain ⟨k, d⟩ := found
      have hremove := h.filter_table (fun v => v ≠ u) (fun _ => true)
        (by simpa using fun heq => hu heq.symm)
      have hall : t.table.filter (fun _ => true) = t.table := by simp
      rw [hall] at hremove
      have huri : s.uris[k]? = some u := h.uri_of_lookup (Store.slot_of_document? hk).1
      exact hremove.cancel_slot_other huri hu
  | commit e report =>
    obtain ⟨huri, _⟩ := hr
    have hu : e.uri ≠ uri := of_decide_eq_false htouches
    rw [Store.uris_getElem?] at huri
    obtain ⟨d, hd, hdu⟩ := Option.map_eq_some_iff.1 huri
    have hwhole : s.perform (.commit e report) = s.attend e.slot d (.commit e report) := by
      simp only [Store.perform, hd]
    rw [hwhole]
    exact h.attend_other hd (by rwa [hdu]) _

theorem Part.accepts (h : Part names uri s t) {r : Request} (hr : r.Fits s)
    (htouches : r.touches uri = true) :
    t.Accepts (r.renumber s.lifetime.length (rank names uri)) := by
  cases r with
  | commit e report =>
    obtain ⟨huri, _⟩ := hr
    rw [Store.uris_getElem?] at huri
    obtain ⟨d, hd, hdu⟩ := Option.map_eq_some_iff.1 huri
    have hslot := h.slot hd (hdu.trans (of_decide_eq_true htouches))
    exact (List.getElem?_eq_some_iff.1 hslot).1
  | _ => trivial

end Requests

/-! ## Requests one after the other -/

namespace Store

theorem uris_release (s : Store) (k : Nat) : (s.release k).uris = s.uris :=
  s.uris_modifySlot k fun _ => rfl

theorem attend_frame (s : Store) (k : Nat) (d : Slot) (work : Work) :
    (s.attend k d work).1.uris = s.uris ∧ (s.attend k d work).1.lifetime = s.lifetime := by
  cases work with
  | close => exact ⟨rfl, rfl⟩
  | version | snapshot =>
    simp only [attend]
    split <;> exact ⟨rfl, rfl⟩
  | change content version =>
    simp only [attend]
    split
    · exact ⟨rfl, rfl⟩
    · split
      · exact ⟨rfl, rfl⟩
      · refine ⟨?_, rfl⟩
        exact (uris_release _ k).trans (uris_modifySlot _ k fun _ => rfl)
  | commit e report =>
    simp only [attend]
    split
    · exact ⟨rfl, rfl⟩
    · refine ⟨?_, rfl⟩
      exact (uris_release _ k).trans (uris_modifySlot _ k fun _ => rfl)

theorem visit_frame (s : Store) (u : Uri) (work : Work) :
    (s.visit u work).1.uris = s.uris ∧ (s.visit u work).1.lifetime = s.lifetime := by
  unfold visit
  split
  · exact ⟨rfl, rfl⟩
  · exact s.attend_frame _ _ work

/-- Documents are never forgotten, and the lifetime stays what it is. -/
theorem perform_frame (s : Store) (r : Request) :
    s.uris <+: (s.perform r).1.uris ∧ (s.perform r).1.lifetime = s.lifetime := by
  cases r with
  | isOpen u | size | shutdown => exact ⟨List.prefix_rfl, rfl⟩
  | track u content version =>
    simp only [perform, track]
    split
    · exact ⟨List.prefix_rfl, rfl⟩
    · split
      · exact ⟨List.prefix_rfl, rfl⟩
      · exact ⟨by simp [uris], rfl⟩
  | change u content version =>
    obtain ⟨huris, hl⟩ := s.visit_frame u (.change content version)
    exact ⟨huris ▸ List.prefix_rfl, hl⟩
  | version u =>
    obtain ⟨huris, hl⟩ := s.visit_frame u .version
    exact ⟨huris ▸ List.prefix_rfl, hl⟩
  | snapshot u =>
    obtain ⟨huris, hl⟩ := s.visit_frame u .snapshot
    exact ⟨huris ▸ List.prefix_rfl, hl⟩
  | close u =>
    simp only [perform]
    split
    · exact ⟨List.prefix_rfl, rfl⟩
    · exact ⟨List.prefix_rfl, rfl⟩
  | commit e report =>
    simp only [perform]
    split
    · exact ⟨List.prefix_rfl, rfl⟩
    · rename_i d _
      obtain ⟨huris, hl⟩ := s.attend_frame e.slot d (.commit e report)
      exact ⟨huris ▸ List.prefix_rfl, hl⟩

end Store

theorem Replays.uris {s s' : Store} {xs : List (Request × Reply)} (h : Replays s xs s') :
    s.uris <+: s'.uris := by
  induction h with
  | nil => exact List.prefix_rfl
  | @cons s _ _ r _ _ _ hp _ ih =>
    have hgrow := (s.perform_frame r).1
    rw [hp] at hgrow
    exact hgrow.trans ih

/-- A request and its reply, as they are for the part of the name. -/
def project (names : List Uri) (uri : Uri) (depth : Nat) (x : Request × Reply) : Request × Reply :=
  (x.1.renumber depth (rank names uri), (x.2.regarding uri).renumber depth (rank names uri))

/-- Of requests one after the other, those about one name return the same by themselves. -/
theorem Replays.project {names : List Uri} {uri : Uri} {s s' t : Store}
    {xs : List (Request × Reply)} (hr : Replays s xs s') (h : Part names uri s t)
    (hnames : s'.uris <+: names)
    (hcommits : ∀ x ∈ xs, ∀ e report, x.1 = .commit e report →
      names[e.slot]? = some e.uri ∧ ∃ n, e.scope = (s.lifetime.child e.slot).child n) :
    ∃ t', Replays t ((xs.filter fun x => x.1.touches uri).map
      (project names uri s.lifetime.length)) t' := by
  induction hr generalizing t with
  | nil => exact ⟨t, .nil⟩
  | @cons s s1 s2 r reply xs ha hp hrest ih =>
    obtain ⟨_, hlifetime⟩ := s.perform_frame r
    have hnames1 : (s.perform r).1.uris <+: names := by
      rw [hp]
      exact hrest.uris.trans hnames
    have hfits : r.Fits s := by
      cases r with
      | commit e report =>
        obtain ⟨hname, hscope⟩ := hcommits _ (List.mem_cons_self ..) e report rfl
        refine ⟨?_, hscope⟩
        obtain ⟨rest, hrest'⟩ := h.opened
        have hlt : e.slot < s.uris.length := by simpa [Store.uris, Store.Accepts] using ha
        rw [← hrest', List.getElem?_append_left hlt] at hname
        exact hname
      | _ => trivial
    rw [hp] at hlifetime
    have hcommits' : ∀ x ∈ xs, ∀ e report, x.1 = .commit e report →
        names[e.slot]? = some e.uri ∧ ∃ n, e.scope = (s1.lifetime.child e.slot).child n := by
      intro x hx
      rw [hlifetime]
      exact hcommits x (List.mem_cons_of_mem _ hx)
    by_cases htouches : r.touches uri = true
    · obtain ⟨hpart, hreply⟩ := h.perform hfits hnames1 htouches
      have haccepts := h.accepts hfits htouches
      rw [hp] at hpart hreply
      obtain ⟨t', ht'⟩ := ih hpart hnames hcommits'
      rw [hlifetime] at ht'
      rw [List.filter_cons_of_pos (a := (r, reply)) htouches, List.map_cons]
      exact ⟨t', .cons haccepts (Prod.ext rfl hreply) ht'⟩
    · have hpart := h.perform_other hfits hnames1 (by simpa using htouches)
      rw [hp] at hpart
      obtain ⟨t', ht'⟩ := ih hpart hnames hcommits'
      rw [hlifetime] at ht'
      rw [List.filter_cons_of_neg (a := (r, reply)) htouches]
      exact ⟨t', ht'⟩

end PromqlServer.Document
