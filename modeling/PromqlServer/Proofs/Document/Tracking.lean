import PromqlServer.Proofs.Document.Liveness
import PromqlServer.Proofs.Document.Sequential

/-!
The documents in the table of a cache that is used by one call at a time: which `open` has put there
and `close` has not removed, and at which version each of them is. `Orderly` is what every request
keeps; from it follows what a request does to the table, and that the context which it hands out is
live.
-/

namespace PromqlServer.Document

namespace Store

/-- The version of the document in a slot. -/
def versionAt (s : Store) (k : Nat) : Int := ((s.slots[k]?).map Slot.version).getD 0

/-- The tracked documents with their versions, the oldest first. -/
def documents (s : Store) : List (Uri × Int) :=
  s.table.map fun entry => (entry.1, s.versionAt entry.2)

/-- A name has one slot in the table, and only what is not current any more is cancelled by
itself. -/
structure Orderly (s : Store) : Prop where
  quiet : s.Quiet
  named : ∀ u k, (u, k) ∈ s.table → ∃ d, s.slots[k]? = some d ∧ d.uri = u
  unique : ∀ u j k, (u, j) ∈ s.table → (u, k) ∈ s.table → j = k
  closed : ∀ k, s.slotScope k ∈ s.cancelled → k < s.slots.length ∧ ¬ s.Tracked k
  replaced : ∀ k n, s.editionScope k n ∈ s.cancelled → ∃ d, s.slots[k]? = some d ∧ n < d.revision

theorem orderly_fresh (lifetime : Scope) : Orderly { lifetime } where
  quiet := quiet_fresh lifetime
  named := by simp
  unique := by simp
  closed := by simp
  replaced := by simp

section Facts

variable {s : Store}

theorem versionAt_eq {k : Nat} {d : Slot} (hd : s.slots[k]? = some d) :
    s.versionAt k = d.version := by
  simp [versionAt, hd]

/-- A tracked document, by its name. -/
theorem Orderly.document?_eq_some (h : Orderly s) {u : Uri} {k : Nat} (hk : s.lookup u = some k) :
    ∃ d, s.document? u = some (k, d) ∧ s.slots[k]? = some d ∧ d.uri = u ∧ (u, k) ∈ s.table := by
  have hmem := mem_table_of_lookup hk
  obtain ⟨d, hd, hu⟩ := h.named u k hmem
  exact ⟨d, by simp [document?, hk, hd], hd, hu, hmem⟩

theorem document?_eq_none {u : Uri} (hk : s.lookup u = none) : s.document? u = none := by
  simp [document?, hk]

/-- The version at which a name is tracked. -/
theorem find?_documents (s : Store) (u : Uri) :
    (s.documents.find? fun x => x.1 = u).map Prod.snd = (s.lookup u).map s.versionAt := by
  simp only [documents, lookup, List.find?_map, Option.map_map]
  rfl

/-- A tracked document is live as long as the lifetime is. -/
theorem Orderly.isCancelled_slot (h : Orderly s) {k : Nat} (hk : s.Tracked k)
    (hlive : s.isCancelled s.lifetime = false) : s.isCancelled (s.slotScope k) = false := by
  rw [← Bool.not_eq_true, Workspace.isCancelled_slotScope]
  rintro (hmem | hended)
  · exact (h.closed k hmem).2 hk
  · rw [hended] at hlive
    cases hlive

end Facts

/-! ## What requests do -/

section Requests

variable {s : Store}

/-- Documents keep their names and do not go back in their revisions. -/
theorem Orderly.of_slots {s' : Store} (h : Orderly s) (hquiet : s'.Quiet)
    (hl : s'.lifetime = s.lifetime) (ht : s'.table = s.table)
    (hslots : ∀ (k : Nat) (d : Slot), s.slots[k]? = some d →
      ∃ d', s'.slots[k]? = some d' ∧ d'.uri = d.uri ∧ d.revision ≤ d'.revision)
    (hclosed : ∀ k, s.slotScope k ∈ s'.cancelled → s.slotScope k ∈ s.cancelled)
    (hreplaced : ∀ k n, s.editionScope k n ∈ s'.cancelled → s.editionScope k n ∈ s.cancelled ∨
      ∃ d', s'.slots[k]? = some d' ∧ n < d'.revision) : Orderly s' where
  quiet := hquiet
  named u k hk := by
    rw [ht] at hk
    obtain ⟨d, hd, hu⟩ := h.named u k hk
    obtain ⟨d', hd', hu', _⟩ := hslots k d hd
    exact ⟨d', hd', hu'.trans hu⟩
  unique := by rw [ht]; exact h.unique
  closed k hk := by
    rw [slotScope, hl] at hk
    obtain ⟨hlt, htracked⟩ := h.closed k (hclosed k hk)
    obtain ⟨d', hd', _⟩ := hslots k _ (List.getElem?_eq_getElem hlt)
    refine ⟨(List.getElem?_eq_some_iff.1 hd').1, ?_⟩
    rintro ⟨u, hu⟩
    rw [ht] at hu
    exact htracked ⟨u, hu⟩
  replaced k n hk := by
    rw [editionScope, slotScope, hl] at hk
    rcases hreplaced k n hk with hk | hk
    · obtain ⟨d, hd, hlt⟩ := h.replaced k n hk
      obtain ⟨d', hd', _, hle⟩ := hslots k d hd
      exact ⟨d', hd', Nat.lt_of_lt_of_le hlt hle⟩
    · exact hk

theorem Orderly.record (h : Orderly s) (k : Nat) (report : Report) :
    Orderly (s.record k report) ∧ (s.record k report).documents = s.documents := by
  have hslot := h.quiet.slot_record k report
  refine ⟨h.of_slots (h.quiet.modifySlot_release k _ fun _ => rfl) rfl rfl (fun j d hd => ?_)
    (fun _ hj => hj) (fun _ _ hj => Or.inl hj), ?_⟩
  · rw [hslot, hd]
    split
    · exact ⟨_, rfl, rfl, Nat.le_refl _⟩
    · exact ⟨_, rfl, rfl, Nat.le_refl _⟩
  · refine List.map_congr_left fun entry _ => ?_
    rw [versionAt, versionAt, hslot]
    split
    · rw [Option.map_map]
      rfl
    · rfl

/-- The edition is the current one of a document. -/
def Hands (s : Store) (e : Edition) : Prop :=
  ∃ d, s.slots[e.slot]? = some d ∧ d.version = e.version ∧ s.isCancelled e.scope = false

/-- The store has the same lifetime, which is not cancelled by what was done. -/
structure Beside (s s' : Store) : Prop where
  lifetime : s'.lifetime = s.lifetime
  cancelled : ∀ t, t <+: s.lifetime → s'.isCancelled t = s.isCancelled t

theorem Beside.refl (s : Store) : Beside s s := ⟨rfl, fun _ _ => rfl⟩

theorem Beside.trans {s s' s'' : Store} (h : Beside s s') (h' : Beside s' s'') : Beside s s'' :=
  ⟨h'.lifetime.trans h.lifetime, fun t ht =>
    (h'.cancelled t (h.lifetime ▸ ht)).trans (h.cancelled t ht)⟩

theorem beside_record (s : Store) (k : Nat) (report : Report) : Beside s (s.record k report) :=
  ⟨rfl, fun _ _ => rfl⟩

/-- To cancel a scope below the lifetime cancels nothing above. -/
theorem isCancelled_cancel_below {t x : Scope} (ht : t <+: s.lifetime) (hx : ¬ x <+: s.lifetime) :
    (s.cancel x).isCancelled t = s.isCancelled t := by
  have hnot : x.isPrefixOf t = false := by
    rw [← Bool.not_eq_true, List.isPrefixOf_iff_prefix]
    exact fun hpre => hx (hpre.trans ht)
  simp [isCancelled, cancel, Scope.isCancelled, hnot]

theorem track_eq {u : Uri} {content : String} {version : Int} (hlook : s.lookup u = none)
    (hlive : s.isCancelled s.lifetime = false) : s.track u content version
      = (s.withSlot u content version,
        .opened ⟨u, version, content, s.slots.length, s.editionScope s.slots.length 0⟩) := by
  simp [track, hlook, hlive, withSlot]

/-- A document is opened under a name that is not tracked. -/
theorem Orderly.withSlot (h : Orderly s) {u : Uri} (hlook : s.lookup u = none)
    (hlive : s.isCancelled s.lifetime = false) (content : String) (version : Int) :
    Orderly (s.withSlot u content version) ∧
    (s.withSlot u content version).documents = s.documents ++ [(u, version)] ∧
    (s.withSlot u content version).Hands
      ⟨u, version, content, s.slots.length, s.editionScope s.slots.length 0⟩ := by
  have hold : ∀ k, k < s.slots.length → (s.withSlot u content version).slots[k]? = s.slots[k]? :=
    fun k hk => List.getElem?_append_left hk
  have hnew : (s.withSlot u content version).slots[s.slots.length]?
      = some { uri := u, version, content } := by
    simp [Store.withSlot]
  have htable : ∀ entry ∈ s.table, entry.2 < s.slots.length := h.quiet.table
  refine ⟨⟨?_, ?_, ?_, ?_, ?_⟩, ?_, _, hnew, rfl, ?_⟩
  · have hquiet := h.quiet.perform (.track u content version)
    rwa [perform, track_eq hlook hlive] at hquiet
  · intro v k hk
    rcases List.mem_append.1 hk with hk | hk
    · obtain ⟨d, hd, hu⟩ := h.named v k hk
      exact ⟨d, by rw [hold k (htable _ hk), hd], hu⟩
    · cases List.mem_singleton.1 hk
      exact ⟨_, hnew, rfl⟩
  · intro v j k hj hk
    have hnone := lookup_eq_none_iff.1 hlook
    rcases List.mem_append.1 hj with hj | hj <;> rcases List.mem_append.1 hk with hk | hk
    · exact h.unique v j k hj hk
    · cases List.mem_singleton.1 hk
      exact absurd hj (hnone j)
    · cases List.mem_singleton.1 hj
      exact absurd hk (hnone k)
    · cases List.mem_singleton.1 hj
      cases List.mem_singleton.1 hk
      rfl
  · intro k hk
    obtain ⟨hlt, htracked⟩ := h.closed k hk
    refine ⟨by simp only [Store.withSlot, List.length_append, List.length_singleton]; omega, ?_⟩
    rintro ⟨v, hv⟩
    rcases List.mem_append.1 hv with hv | hv
    · exact htracked ⟨v, hv⟩
    · cases List.mem_singleton.1 hv
      omega
  · intro k n hk
    obtain ⟨d, hd, hlt⟩ := h.replaced k n hk
    exact ⟨d, by rw [hold k (List.getElem?_eq_some_iff.1 hd).1, hd], hlt⟩
  · have hversions : (s.table.map fun entry => (entry.1, (s.withSlot u content version).versionAt
        entry.2)) = s.documents := by
      refine List.map_congr_left fun entry hentry => ?_
      rw [versionAt, versionAt, hold _ (htable entry hentry)]
    have hlast : (s.withSlot u content version).versionAt s.slots.length = version :=
      versionAt_eq hnew
    have happend : (s.withSlot u content version).table = s.table ++ [(u, s.slots.length)] := rfl
    rw [documents, happend, List.map_append, hversions, List.map_singleton, hlast]
  · -- no scope of the new document can be cancelled by itself
    rw [← Bool.not_eq_true]
    intro hcancelled
    rcases (Workspace.isCancelled_editionScope (s.withSlot u content version) _ 0).1 hcancelled with
      hedition | hslot | hended
    · obtain ⟨d, hd, _⟩ := h.replaced s.slots.length 0 hedition
      simp at hd
    · have hlt := (h.closed s.slots.length hslot).1
      omega
    · have hover : s.isCancelled s.lifetime = true := hended
      rw [hover] at hlive
      cases hlive

/-- The store with a new text for a document. -/
def withText (s : Store) (k : Nat) (d : Slot) (content : String) (version : Int) : Store :=
  ((s.cancel (s.editionScope k d.revision)).replace k d content version).1

theorem Quiet.withText (h : Quiet s) (k : Nat) (d : Slot) (content : String) (version : Int) :
    Quiet (s.withText k d content version) := by
  have hcancel : Quiet (s.cancel (s.editionScope k d.revision)) :=
    h.of_slots rfl h.queues (List.Sublist.refl _)
  exact hcancel.modifySlot_release k _ fun _ => rfl

theorem slot_withText (h : Quiet s) {k : Nat} {d : Slot} (hd : s.slots[k]? = some d)
    (content : String) (version : Int) (j : Nat) : (s.withText k d content version).slots[j]?
      = if j = k then some (d.revised content version) else s.slots[j]? := by
  have hdata : d.data = d := by
    have hslot := h.slot k
    rw [hd, dataOf_eq hd] at hslot
    exact (Option.some.inj hslot).symm
  have hreplace := dataOf_replace (s := s.cancel (s.editionScope k d.revision)) hd content version j
  rw [(h.withText k d content version).slot, Store.withText, hreplace, hdata, h.slot]
  rfl

/-- The text of a tracked document is replaced. -/
theorem Orderly.withText (h : Orderly s) {u : Uri} {k : Nat} {d : Slot} (hk : s.lookup u = some k)
    (hd : s.slots[k]? = some d) (hlive : s.isCancelled s.lifetime = false) (content : String)
    (version : Int) :
    Orderly (s.withText k d content version) ∧
    (s.withText k d content version).documents
      = s.documents.map (fun x => if x.1 = u then (u, version) else x) ∧
    (s.withText k d content version).Hands
      ⟨d.uri, version, content, k, s.editionScope k (d.revision + 1)⟩ ∧
    Beside s (s.withText k d content version) := by
  have hslot := slot_withText h.quiet hd content version
  have hmem := mem_table_of_lookup hk
  have hself : (s.withText k d content version).slots[k]? = some (d.revised content version) := by
    rw [hslot, if_pos rfl]
  have hbelow : ¬ s.editionScope k d.revision <+: s.lifetime := Scope.not_grandchild_prefix
  refine ⟨h.of_slots (h.quiet.withText k d content version) rfl rfl ?_ ?_ ?_, ?_,
    ⟨_, hself, rfl, ?_⟩, rfl, ?_⟩
  · intro j d' hd'
    rw [hslot]
    by_cases hjk : j = k
    · subst hjk
      rw [hd] at hd'
      cases hd'
      exact ⟨_, if_pos rfl, rfl, Nat.le_succ _⟩
    · exact ⟨d', by rw [if_neg hjk, hd'], rfl, Nat.le_refl _⟩
  · intro j hj
    rcases List.mem_cons.1 hj with hj | hj
    · exact absurd hj (Workspace.slotScope_ne_editionScope s j k _)
    · exact hj
  · intro j n hj
    rcases List.mem_cons.1 hj with hj | hj
    · obtain ⟨rfl, rfl⟩ := Workspace.editionScope_inj hj
      exact Or.inr ⟨_, hself, Nat.lt_succ_self _⟩
    · exact Or.inl hj
  · rw [documents, documents, List.map_map]
    refine List.map_congr_left fun entry hentry => ?_
    obtain ⟨v, j⟩ := entry
    by_cases hv : v = u
    · subst hv
      have hjk := h.unique v j k hentry hmem
      subst hjk
      simp [versionAt_eq hself, Slot.revised]
    · -- a document of another name is in another slot
      have hjk : j ≠ k := by
        rintro rfl
        obtain ⟨d1, hd1, hu1⟩ := h.named v j hentry
        obtain ⟨d2, hd2, hu2⟩ := h.named u j hmem
        rw [hd1] at hd2
        cases hd2
        exact hv (hu1.symm.trans hu2)
      simp [hv, versionAt, hslot, hjk]
  · have htracked := h.isCancelled_slot ⟨u, hmem⟩ hlive
    rw [← Bool.not_eq_true]
    intro hcancelled
    rcases (Workspace.isCancelled_editionScope (s.withText k d content version) k _).1 hcancelled
      with hedition | hslotk | hended
    · rcases List.mem_cons.1 hedition with heq | hedition
      · have := (Workspace.editionScope_inj (s := s) heq).2
        omega
      · obtain ⟨d', hd', hlt⟩ := h.replaced k _ hedition
        rw [hd] at hd'
        cases hd'
        omega
    · rcases List.mem_cons.1 hslotk with heq | hslotk
      · exact absurd heq (Workspace.slotScope_ne_editionScope s k k _)
      · exact (h.closed k hslotk).2 ⟨u, hmem⟩
    · have hover : (s.cancel (s.editionScope k d.revision)).isCancelled s.lifetime = true := hended
      rw [isCancelled_cancel_below List.prefix_rfl hbelow, hlive] at hover
      cases hover
  · intro t ht
    exact isCancelled_cancel_below ht hbelow

/-- The store without a document. -/
def withoutSlot (s : Store) (u : Uri) (k : Nat) : Store :=
  cancel { s with table := s.table.filter fun entry => entry.1 ≠ u } (s.slotScope k)

/-- A tracked document is closed. -/
theorem Orderly.withoutSlot (h : Orderly s) {u : Uri} {k : Nat} (hk : s.lookup u = some k) :
    Orderly (s.withoutSlot u k) ∧
    (s.withoutSlot u k).documents = s.documents.filter (fun x => x.1 ≠ u) ∧
    Beside s (s.withoutSlot u k) := by
  have hmem := mem_table_of_lookup hk
  have hsub : ∀ {v j}, (v, j) ∈ (s.withoutSlot u k).table → (v, j) ∈ s.table ∧ v ≠ u := by
    intro v j hv
    obtain ⟨hv, hne⟩ := List.mem_filter.1 hv
    exact ⟨hv, by simpa using hne⟩
  obtain ⟨d, hd, hu⟩ := h.named u k hmem
  refine ⟨⟨?_, ?_, ?_, ?_, ?_⟩, ?_, rfl, ?_⟩
  · exact h.quiet.of_slots rfl h.quiet.queues List.filter_sublist
  · exact fun v j hv => h.named v j (hsub hv).1
  · exact fun v i j hi hj => h.unique v i j (hsub hi).1 (hsub hj).1
  · intro j hj
    rcases List.mem_cons.1 hj with hj | hj
    · obtain rfl := Scope.child_inj.1 hj
      refine ⟨(List.getElem?_eq_some_iff.1 hd).1, ?_⟩
      rintro ⟨v, hv⟩
      obtain ⟨hv, hne⟩ := hsub hv
      obtain ⟨d', hd', hu'⟩ := h.named v j hv
      rw [hd] at hd'
      cases hd'
      exact hne (hu'.symm.trans hu)
    · obtain ⟨hlt, htracked⟩ := h.closed j hj
      refine ⟨hlt, ?_⟩
      rintro ⟨v, hv⟩
      exact htracked ⟨v, (hsub hv).1⟩
  · intro j n hj
    rcases List.mem_cons.1 hj with hj | hj
    · exact absurd hj.symm (Workspace.slotScope_ne_editionScope s k j n)
    · exact h.replaced j n hj
  · rw [documents, documents, List.filter_map]
    rfl
  · intro t ht
    exact isCancelled_cancel_below
      (s := { s with table := s.table.filter fun entry => entry.1 ≠ u }) ht Scope.not_child_prefix

/-- The lifetime ends, or a scope above it is cancelled. -/
theorem Orderly.cancel_above (h : Orderly s) {t : Scope} (ht : t <+: s.lifetime) :
    Orderly (s.cancel t) := by
  refine h.of_slots (h.quiet.of_slots rfl h.quiet.queues (List.Sublist.refl _)) rfl rfl
    (fun _ d hd => ⟨d, hd, rfl, Nat.le_refl _⟩) (fun k hk => ?_) (fun k n hk => ?_)
  · rcases List.mem_cons.1 hk with hk | hk
    · exact absurd hk.symm (Workspace.ne_of_prefix_lifetime ht k 0).1
    · exact hk
  · rcases List.mem_cons.1 hk with hk | hk
    · exact absurd hk.symm (Workspace.ne_of_prefix_lifetime ht k n).2
    · exact Or.inl hk

/-- The store after a shutdown. -/
def emptied (s : Store) : Store := { s.cancel s.lifetime with table := [] }

theorem Orderly.emptied (h : Orderly s) : Orderly s.emptied ∧ s.emptied.documents = [] := by
  have hcancel := h.cancel_above List.prefix_rfl
  refine ⟨⟨hcancel.quiet.of_slots rfl hcancel.quiet.queues (List.nil_sublist _), ?_, ?_, ?_,
    hcancel.replaced⟩, rfl⟩
  · intro v j hv
    cases hv
  · intro v i j hi
    cases hi
  · intro j hj
    refine ⟨(hcancel.closed j hj).1, ?_⟩
    rintro ⟨v, hv⟩
    cases hv

/-- What a shutdown returns of the tracked documents. -/
theorem Orderly.closeAll (h : Orderly s) : (s.closeAll (s.table.map Prod.snd)).map Closed.notice
    = s.documents.map fun x => ⟨x.1, some x.2, []⟩ := by
  have hentries : ∀ l : List (Uri × Nat), (∀ entry ∈ l, entry ∈ s.table) →
      (s.closeAll (l.map Prod.snd)).map Closed.notice
        = l.map fun entry => ⟨entry.1, some (s.versionAt entry.2), []⟩ := by
    intro l hl
    induction l with
    | nil => rfl
    | cons entry l ih =>
      have hrest := ih fun e he => hl e (List.mem_cons_of_mem _ he)
      obtain ⟨d, hd, hu⟩ := h.named entry.1 entry.2 (hl entry (List.mem_cons_self ..))
      rw [List.map_cons, closeAll_cons hd, List.map_cons, List.map_cons, hrest, versionAt_eq hd,
        ← hu]
      rfl
  rw [hentries s.table fun _ he => he, documents, List.map_map]
  rfl

end Requests

end Store

end PromqlServer.Document
