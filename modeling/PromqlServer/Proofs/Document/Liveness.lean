import PromqlServer.Proofs.Document.Closings
import PromqlServer.Proofs.Document.Stretches

/-!
Which version contexts are live. Cancellation goes down the tree of scopes, while the current slot
is the one in the table and the current context the one that `open` or `change` gave the slot last;
`live_edition_iff` says that the two agree wherever no call is between two awaits.
-/

namespace PromqlServer.Document

/-- The edition of a slot that an event hands out. -/
def Event.editionOf? (k : Nat) (x : Event) : Option Edition :=
  x.edition?.filter fun e => e.slot = k

theorem Event.edition?_eq_none {x : Event} (h : ∀ j e, x ≠ .returned j (.opened e)) :
    x.edition? = none := by
  unfold edition?
  split
  · rename_i j e
    exact absurd rfl (h j e)
  · rfl

namespace Workspace

/-- The edition that was handed out last for a slot. -/
def latest (w : Workspace) (k : Nat) : Option Edition := w.history.findSome? (Event.editionOf? k)

theorem handedOut_of_latest {w : Workspace} {k : Nat} {e : Edition} (h : w.latest k = some e) :
    w.HandedOut e ∧ e.slot = k := by
  obtain ⟨x, hx, he⟩ := List.exists_of_findSome?_eq_some h
  obtain ⟨he, hslot⟩ := Option.filter_eq_some_iff.1 he
  exact ⟨handedOut_iff.2 (List.mem_map.2 ⟨x, hx, he⟩), by simpa using hslot⟩

theorem findSome?_editionOf? {es : List Event} (h : ∀ x ∈ es, x.edition? = none) (k : Nat) :
    es.findSome? (Event.editionOf? k) = none := by
  rw [List.findSome?_eq_none_iff]
  intro x hx
  rw [Event.editionOf?, h x hx]
  rfl

/-- The latest edition after a step that hands out none. -/
theorem latest_append {w w' : Workspace} (es : List Event) (hh : w'.history = es ++ w.history)
    (hes : ∀ x ∈ es, x.edition? = none) (k : Nat) : w'.latest k = w.latest k := by
  rw [latest, hh, List.findSome?_append, findSome?_editionOf? hes]
  rfl

theorem latest_turned {w w' : Workspace} {id : Nat} {c : Call} {t : Turn} {es : List Event}
    (hes : ∀ e ∈ es, e.isAside = true)
    (hh : w'.history = es ++ (t.replies id ++ (c.notes id ++ w.history))) (k : Nat) :
    w'.latest k = ((t.replies id).findSome? (Event.editionOf? k)).or (w.latest k) := by
  have haside : ∀ x ∈ es, x.edition? = none := fun x hx =>
    Event.edition?_eq_none fun j e he => by subst he; cases hes _ hx
  have hnotes : ∀ x ∈ c.notes id, x.edition? = none := fun x hx =>
    Event.edition?_eq_none fun j e he => by subst he; exact returned_notin_notes id j c _ hx
  rw [latest, hh, List.findSome?_append, findSome?_editionOf? haside, List.findSome?_append,
    List.findSome?_append, findSome?_editionOf? hnotes]
  rfl

/-! ## Cancelled scopes -/

/-- Which scopes of documents and editions are cancelled, and which edition is the latest. -/
structure Pruned (w : Workspace) : Prop where
  slots : ∀ k, w.store.slotScope k ∈ w.store.cancelled →
    k < w.store.slots.length ∧ ¬ w.store.Tracked k
  editions : ∀ k n, w.store.editionScope k n ∈ w.store.cancelled →
    ∃ d, w.store.dataOf k = some d ∧ (n < d.revision ∨
      (n = d.revision ∧ ∃ id content v, w.callAt id = some (.replace k content v)))
  earlier : ∀ k d n, w.store.dataOf k = some d → n < d.revision →
    w.store.editionScope k n ∈ w.store.cancelled
  replacing : ∀ id k content v d, w.callAt id = some (.replace k content v) →
    w.store.dataOf k = some d → w.store.editionScope k d.revision ∈ w.store.cancelled
  latest : ∀ k d, w.store.dataOf k = some d →
    ∃ e, w.latest k = some e ∧ e.scope = w.store.editionScope k d.revision

theorem pruned_fresh (lifetime : Scope) : Pruned (fresh lifetime) where
  slots := by simp [fresh]
  editions := by simp [fresh]
  earlier := by simp [fresh, Store.dataOf]
  replacing := by simp [fresh, callAt, task?]
  latest := by simp [fresh, Store.dataOf]

/-- The scope of a document is not the one of an edition. -/
theorem slotScope_ne_editionScope (s : Store) (k j n : Nat) :
    s.slotScope k ≠ s.editionScope j n := by
  intro h
  have := congrArg List.length h
  simp only [Store.editionScope, Store.slotScope, Scope.length_child] at this
  omega

theorem editionScope_inj {s : Store} {k j m n : Nat}
    (h : s.editionScope k m = s.editionScope j n) : k = j ∧ m = n := by
  simp only [Store.editionScope, Store.slotScope, Scope.child, List.append_assoc,
    List.append_cancel_left_eq, List.cons_append, List.nil_append, List.cons.injEq, and_true] at h
  exact h

/-- The scopes above the lifetime are none of a document or an edition. -/
theorem ne_of_prefix_lifetime {s : Store} {t : Scope} (h : t <+: s.lifetime) (k n : Nat) :
    t ≠ s.slotScope k ∧ t ≠ s.editionScope k n := by
  constructor
  · rintro rfl
    exact Scope.not_child_prefix h
  · rintro rfl
    exact Scope.not_grandchild_prefix h

/-- A step that changes no data and cancels nothing of a document, while each call at its
replacement stays. -/
theorem Pruned.of_same {w w' : Workspace} (h : Pruned w) (hm : Moved w w')
    (htable : w'.store.table = w.store.table)
    (hdata : ∀ k, w'.store.dataOf k = w.store.dataOf k)
    (hcancelled : ∀ t, t ∈ w'.store.cancelled ↔ t ∈ w.store.cancelled ∨
      (t ∈ w'.store.cancelled ∧ t <+: w.store.lifetime))
    (hcalls : ∀ id k content v, w'.callAt id = some (.replace k content v) ↔
      w.callAt id = some (.replace k content v))
    (hlatest : ∀ k, w'.latest k = w.latest k) : Pruned w' := by
  have hslot : ∀ k, w'.store.slotScope k = w.store.slotScope k := hm.slotScope
  have hedition : ∀ k n, w'.store.editionScope k n = w.store.editionScope k n := by
    intro k n
    rw [Store.editionScope, hslot]
    rfl
  refine ⟨fun k hk => ?_, fun k n hk => ?_, fun k d n hd hlt => ?_,
    fun id k content v d hid hd => ?_, fun k d hd => ?_⟩
  · rw [hslot, hcancelled] at hk
    rcases hk with hk | ⟨_, hpre⟩
    · obtain ⟨hlt, hun⟩ := h.slots k hk
      refine ⟨Nat.lt_of_lt_of_le hlt hm.length_le, ?_⟩
      rwa [Store.Tracked, htable]
    · exact absurd rfl (ne_of_prefix_lifetime hpre k 0).1
  · rw [hedition, hcancelled] at hk
    rcases hk with hk | ⟨_, hpre⟩
    · obtain ⟨d, hd, hlt | ⟨hn, id, content, v, hid⟩⟩ := h.editions k n hk
      · exact ⟨d, by rw [hdata, hd], Or.inl hlt⟩
      · exact ⟨d, by rw [hdata, hd], Or.inr ⟨hn, id, content, v, (hcalls id k content v).2 hid⟩⟩
    · exact absurd rfl (ne_of_prefix_lifetime hpre k n).2
  · rw [hedition]
    rw [hdata] at hd
    exact (hcancelled _).2 (Or.inl (h.earlier k d n hd hlt))
  · rw [hedition]
    rw [hdata] at hd
    have hold := h.replacing id k content v d ((hcalls id k content v).1 hid) hd
    exact (hcancelled _).2 (Or.inl hold)
  · rw [hdata] at hd
    obtain ⟨e, he, hscope⟩ := h.latest k d hd
    exact ⟨e, by rw [hlatest, he], by rw [hedition]; exact hscope⟩

/-- What a turn has just cancelled. -/
theorem mem_cancelled_turned {s s' : Store} {id : Nat} {c : Call} {t : Turn} (h : Turned s id c t)
    (hs : t.store? = some s') {scope : Scope} (hm : scope ∈ s'.cancelled) :
    scope ∈ s.cancelled ∨ (∃ k, c = .cancelSlot k ∧ scope = s.slotScope k) ∨
      (∃ k d content v, c = .supersede k content v ∧ s.slots[k]? = some d ∧
        scope = s.editionScope k d.revision ∧ t.call? = some (.replace k content v)) ∨
      scope = s.lifetime := by
  cases h.cancelStep hs with
  | same hc => exact Or.inl (hc ▸ hm)
  | slot k hc hs' =>
    rw [hs'] at hm
    rcases List.mem_cons.1 hm with heq | hm
    · exact Or.inr (Or.inl ⟨k, hc, heq⟩)
    · exact Or.inl hm
  | edition k d content v hc hd hs' ha =>
    rw [hs'] at hm
    rcases List.mem_cons.1 hm with heq | hm
    · exact Or.inr (Or.inr (Or.inl ⟨k, d, content, v, hc, hd, heq, ha⟩))
    · exact Or.inl hm
  | lifetime _ hs' =>
    rw [hs'] at hm
    rcases List.mem_cons.1 hm with heq | hm
    · exact Or.inr (Or.inr (Or.inr heq))
    · exact Or.inl hm

theorem cancelled_subset_turned {s s' : Store} {id : Nat} {c : Call} {t : Turn}
    (h : Turned s id c t) (hs : t.store? = some s') {scope : Scope} (hm : scope ∈ s.cancelled) :
    scope ∈ s'.cancelled := by
  cases h.cancelStep hs with
  | same hc => exact hc ▸ hm
  | slot _ _ hs' => rw [hs']; exact List.mem_cons_of_mem _ hm
  | edition _ _ _ _ _ _ hs' => rw [hs']; exact List.mem_cons_of_mem _ hm
  | lifetime _ hs' => rw [hs']; exact List.mem_cons_of_mem _ hm

theorem Pruned.slots_turned {w w' : Workspace} (h : Pruned w) (hw : Sound w) (hwd : Withdrawn w)
    (hm : Moved w w') {id : Nat} {c : Call} {t : Turn} (hcall : w.callAt id = some c)
    (ht : Turned w.store id c t) (hs : t.store? = some w'.store) {k : Nat}
    (hk : w'.store.slotScope k ∈ w'.store.cancelled) :
    k < w'.store.slots.length ∧ ¬ w'.store.Tracked k := by
  have hold : k < w.store.slots.length ∧ ¬ w.store.Tracked k := by
    rw [hm.slotScope] at hk
    obtain hk | ⟨j, rfl, heq⟩ | ⟨j, d, _, _, _, _, heq, _⟩ | heq := mem_cancelled_turned ht hs hk
    · exact h.slots k hk
    · cases Scope.child_inj.1 heq
      have hrem : k ∈ (Call.cancelSlot k).removes := List.mem_singleton.2 rfl
      exact ⟨hw.staged.mentions hcall k (Call.removes_subset_mentions hrem),
        hwd.untracked id _ k hcall hrem⟩
    · exact absurd heq (slotScope_ne_editionScope w.store k j d.revision)
    · exact absurd heq.symm (ne_of_prefix_lifetime List.prefix_rfl k 0).1
  exact ⟨Nat.lt_of_lt_of_le hold.1 hm.length_le, fun htr => hold.2 (hm.tracked htr hold.1)⟩

theorem Pruned.editions_turned {w w' : Workspace} (h : Pruned w) {id : Nat} {c : Call} {t : Turn}
    (hcall : w.callAt id = some c) (ht : Turned w.store id c t) (hs : t.store? = some w'.store)
    (hc : ∀ j, w'.callAt j = if j = id then t.call? else w.callAt j) {k n : Nat}
    (hk : w.store.editionScope k n ∈ w'.store.cancelled) :
    ∃ d, w'.store.dataOf k = some d ∧ (n < d.revision ∨
      (n = d.revision ∧ ∃ id content v, w'.callAt id = some (.replace k content v))) := by
  obtain hk | ⟨j, _, heq⟩ | ⟨j, d, content, v, rfl, hd, heq, ha⟩ | heq :=
    mem_cancelled_turned ht hs hk
  · obtain ⟨d, hd, hrev⟩ := h.editions k n hk
    -- a call at its replacement stays there, unless it takes this turn
    have hstays : (∀ content v, c ≠ .replace k content v) → n < d.revision ∨
        (n = d.revision ∧ ∃ id content v, w'.callAt id = some (.replace k content v)) := by
      intro hother
      rcases hrev with hlt | ⟨hn, j, content, v, hj⟩
      · exact Or.inl hlt
      · have hne : j ≠ id := by
          rintro rfl
          rw [hcall] at hj
          exact hother content v (Option.some.inj hj)
        exact Or.inr ⟨hn, j, content, v, by rw [hc, if_neg hne, hj]⟩
    cases ht.dataStep hs with
    | same hsame hr =>
      refine ⟨d, by rw [hsame, hd], hstays ?_⟩
      rintro content v rfl
      cases ht with
      | blocked => cases hs
      | answered hbrief => cases hbrief
      | replaced => exact hr _ _ rfl
    | tracked uri content version hc' _ _ hs' =>
      have := Store.lt_of_dataOf hd
      refine ⟨d, by rw [hs', Store.dataOf_withSlot, if_neg (by omega), hd], hstays ?_⟩
      rw [hc']
      nofun
    | recorded j report hc' hs' =>
      have hstays := hstays (by rw [hc']; nofun)
      rw [hs', Store.dataOf_record]
      split
      · exact ⟨d.recorded report, by rw [hd]; rfl, hstays⟩
      · exact ⟨d, hd, hstays⟩
    | replaced j d0 content version hc' hd0 hs' =>
      rw [hs', Store.dataOf_replace hd0]
      split
      · rename_i hkj
        rw [hkj, Store.dataOf_eq hd0] at hd
        cases hd
        refine ⟨_, rfl, Or.inl ?_⟩
        simp only [Slot.revised, Slot.data_revision] at hrev ⊢
        omega
      · rename_i hkj
        refine ⟨d, hd, hstays ?_⟩
        rw [hc']
        rintro content v ⟨⟩
        exact hkj rfl
  · exact absurd heq.symm (slotScope_ne_editionScope w.store j k n)
  · obtain ⟨rfl, rfl⟩ := editionScope_inj heq
    have hturn : Turned w.store id (.supersede k content v)
        (.next w'.store (.replace k content v)) := by
      cases t with
      | blocked => cases hs
      | done s r => cases ha
      | next s c' =>
        cases ha
        cases hs
        exact ht
    refine ⟨d.data, by rw [hturn.dataOf_next, Store.dataOf_eq hd], Or.inr ⟨rfl, id, content, v, ?_⟩⟩
    rw [hc, if_pos rfl, ha]
  · exact absurd heq.symm (ne_of_prefix_lifetime List.prefix_rfl k n).2

theorem Pruned.earlier_turned {w w' : Workspace} (h : Pruned w) {id : Nat} {c : Call} {t : Turn}
    (hcall : w.callAt id = some c) (ht : Turned w.store id c t) (hs : t.store? = some w'.store)
    {k n : Nat} {d : Slot} (hd : w'.store.dataOf k = some d) (hlt : n < d.revision) :
    w.store.editionScope k n ∈ w'.store.cancelled := by
  apply cancelled_subset_turned ht hs
  cases ht.dataStep hs with
  | same hsame => exact h.earlier k d n (by rw [← hsame, hd]) hlt
  | tracked uri content version _ _ _ hs' =>
    rw [hs', Store.dataOf_withSlot] at hd
    split at hd
    · cases hd
      cases hlt
    · exact h.earlier k d n hd hlt
  | recorded j report _ hs' =>
    rw [hs', Store.dataOf_record] at hd
    split at hd
    · obtain ⟨d0, hd0, rfl⟩ := Option.map_eq_some_iff.1 hd
      exact h.earlier k d0 n hd0 hlt
    · exact h.earlier k d n hd hlt
  | replaced j d0 content version hc hd0 hs' =>
    rw [hs', Store.dataOf_replace hd0] at hd
    split at hd
    · rename_i hkj
      subst hkj hc
      cases hd
      -- the edition that was the current one is cancelled since the turn before
      rcases Nat.lt_succ_iff_lt_or_eq.1 hlt with hlt | heq
      · exact h.earlier k _ n (Store.dataOf_eq hd0) hlt
      · rw [heq]
        exact h.replacing id k content version _ hcall (Store.dataOf_eq hd0)
    · exact h.earlier k d n hd hlt

theorem Pruned.replacing_turned {w w' : Workspace} (h : Pruned w) (hw : Sound w) {id : Nat}
    {c : Call} {t : Turn} (hcall : w.callAt id = some c) (ht : Turned w.store id c t)
    (hs : t.store? = some w'.store)
    (hc : ∀ j, w'.callAt j = if j = id then t.call? else w.callAt j) {j k : Nat} {content : String}
    {v : Int} {d : Slot} (hj : w'.callAt j = some (.replace k content v))
    (hd : w'.store.dataOf k = some d) :
    w.store.editionScope k d.revision ∈ w'.store.cancelled := by
  by_cases hji : j = id
  · rw [hji, hc, if_pos rfl] at hj
    cases ht with
    | superseded hheld =>
      cases hj
      rw [← Option.some.inj hs] at hd ⊢
      rw [Store.dataOf_cancel, Store.dataOf_eq (Store.held_eq_some_iff.1 hheld).1] at hd
      cases hd
      exact List.mem_cons_self ..
    | _ => cases hj
  · rw [hc, if_neg hji] at hj
    apply cancelled_subset_turned ht hs
    obtain ⟨d0, hd0, _⟩ := hw.dated.newer j k content v (Or.inr hj)
    obtain ⟨d', hd', _, hrev⟩ := hw.locked.text_kept hcall ht hs hji hj rfl rfl hd0
    rw [hd] at hd'
    cases hd'
    rw [hrev]
    exact h.replacing j k content v d0 hj hd0

theorem Pruned.latest_turned {w w' : Workspace} (h : Pruned w) {id : Nat} {c : Call} {t : Turn}
    {es : List Event} (ht : Turned w.store id c t) (hs : t.store? = some w'.store)
    (hes : ∀ e ∈ es, e.isAside = true)
    (hh : w'.history = es ++ (t.replies id ++ (c.notes id ++ w.history))) {k : Nat} {d : Slot}
    (hd : w'.store.dataOf k = some d) :
    ∃ e, w'.latest k = some e ∧ e.scope = w.store.editionScope k d.revision := by
  rw [Workspace.latest_turned hes hh]
  have hquiet : (∀ u e, t ≠ .done u (.opened e)) →
      (t.replies id).findSome? (Event.editionOf? k) = none := by
    intro hr
    refine findSome?_editionOf? (fun x hx => Event.edition?_eq_none fun j e he => ?_) k
    subst he
    cases t with
    | blocked => cases hx
    | next s c' => cases hx
    | done s r =>
      cases List.mem_singleton.1 hx
      exact hr s e rfl
  have hother : ∀ s e, t = .done s (.opened e) → e.slot ≠ k →
      (t.replies id).findSome? (Event.editionOf? k) = none := by
    rintro s e rfl hne
    simp [Turn.replies, Event.editionOf?, Event.edition?, hne]
  have hself : ∀ s e, t = .done s (.opened e) → e.slot = k →
      (t.replies id).findSome? (Event.editionOf? k) = some e := by
    rintro s e rfl heq
    simp [Turn.replies, Event.editionOf?, Event.edition?, heq]
  cases ht.dataStep hs with
  | same hsame hr =>
    rw [hquiet hr]
    exact h.latest k d (by rw [← hsame, hd])
  | recorded j report _ hs' hr =>
    rw [hquiet hr]
    rw [hs', Store.dataOf_record] at hd
    split at hd
    · obtain ⟨d0, hd0, rfl⟩ := Option.map_eq_some_iff.1 hd
      exact h.latest k d0 hd0
    · exact h.latest k d hd
  | tracked uri content version _ _ _ hs' ht' =>
    rw [hs', Store.dataOf_withSlot] at hd
    split at hd
    · rename_i hk
      cases hd
      rw [hself _ _ ht' hk.symm, hk]
      exact ⟨_, rfl, rfl⟩
    · rename_i hk
      rw [hother _ _ ht' fun he => hk he.symm]
      exact h.latest k d hd
  | replaced j d0 content version _ hd0 hs' ht' =>
    rw [hs', Store.dataOf_replace hd0] at hd
    split at hd
    · rename_i hk
      cases hd
      rw [hself _ _ ht' hk.symm, hk]
      exact ⟨_, rfl, rfl⟩
    · rename_i hk
      rw [hother _ _ ht' fun he => hk he.symm]
      exact h.latest k d hd

theorem Pruned.step {w w' : Workspace} (h : Pruned w) (hw : Sound w) (hwd : Withdrawn w)
    (hm : Moved w w') : Pruned w' := by
  have hm' := hm
  have hedition : ∀ k n, w'.store.editionScope k n = w.store.editionScope k n := by
    intro k n
    rw [Store.editionScope, hm.slotScope]
    rfl
  cases hm with
  | aside hs hc es hes hh =>
    refine h.of_same hm' (by rw [hs]) (fun k => by rw [hs]) (fun t => ?_)
      (fun id k c v => by rw [hc])
      (latest_append es hh fun x hx => Event.edition?_eq_none fun j e he => ?_)
    · rw [hs]
      exact ⟨Or.inl, fun ht => ht.elim (fun h => h) And.left⟩
    · subst he
      cases hes _ hx
  | invoked id request _ _ _ hnone hs hc hh =>
    refine h.of_same hm' (by rw [hs]) (fun k => by rw [hs]) (fun t => ?_) (fun j k content v => ?_)
      (latest_append [_] hh (by simp [Event.edition?]))
    · rw [hs]
      exact ⟨Or.inl, fun ht => ht.elim (fun h => h) And.left⟩
    · rw [hc]
      split
      · rename_i hj
        rw [hj, hnone]
        cases request <;> simp [Request.call]
      · rfl
  | cancelled scope hscope hs hc hh =>
    refine h.of_same hm' (by rw [hs]; rfl) (fun k => by rw [hs]; rfl) (fun t => ?_)
      (fun id k c v => by rw [hc]) (latest_append [_] hh (by simp [Event.edition?]))
    rw [hs]
    simp only [Store.cancel, List.mem_cons]
    constructor
    · rintro (rfl | ht)
      · exact Or.inr ⟨Or.inl rfl, hscope⟩
      · exact Or.inl ht
    · rintro (ht | ⟨ht, _⟩)
      · exact Or.inr ht
      · exact ht
  | turned id c t hcall ht hs hc es hes hh =>
    refine ⟨fun k hk => h.slots_turned hw hwd hm' hcall ht hs hk, fun k n hk => ?_,
      fun k d n hd hlt => ?_, fun j k content v d hj hd => ?_, fun k d hd => ?_⟩
    · rw [hedition] at hk
      exact h.editions_turned hcall ht hs hc hk
    · rw [hedition]
      exact h.earlier_turned hcall ht hs hd hlt
    · rw [hedition]
      exact h.replacing_turned hw hcall ht hs hc hj hd
    · rw [hedition]
      exact h.latest_turned ht hs hes hh hd

theorem Reaches.pruned {lifetime : Scope} {w : Workspace} (hr : Reaches (fresh lifetime) w) :
    Pruned w := by
  suffices hall : Pruned w ∧ Withdrawn w from hall.1
  refine hr.keeps (P := fun u => Pruned u ∧ Withdrawn u) (sound_fresh lifetime)
    ⟨pruned_fresh lifetime, withdrawn_fresh lifetime⟩ ?_
  rintro u v hu - hm ⟨hpruned, hwithdrawn⟩
  exact ⟨hpruned.step hu hwithdrawn hm, hwithdrawn.step hu hm⟩

/-! ## Live editions -/

/-- An edition is cancelled by itself, with its document, or with the lifetime. -/
theorem isCancelled_editionScope (s : Store) (k n : Nat) :
    s.isCancelled (s.editionScope k n) = true ↔ s.editionScope k n ∈ s.cancelled ∨
      s.slotScope k ∈ s.cancelled ∨ s.isCancelled s.lifetime = true := by
  unfold Store.isCancelled
  rw [Scope.isCancelled_iff, Scope.isCancelled_iff]
  constructor
  · rintro ⟨t, ht, hpre⟩
    rcases Scope.prefix_child_iff.1 hpre with rfl | hpre
    · exact Or.inl ht
    · rcases Scope.prefix_child_iff.1 hpre with rfl | hpre
      · exact Or.inr (Or.inl ht)
      · exact Or.inr (Or.inr ⟨t, ht, hpre⟩)
  · rintro (ht | ht | ⟨t, ht, hpre⟩)
    · exact ⟨_, ht, List.prefix_rfl⟩
    · exact ⟨_, ht, Scope.prefix_child _ _⟩
    · exact ⟨t, ht, (hpre.trans (Scope.prefix_child _ _)).trans (Scope.prefix_child _ _)⟩

theorem isCancelled_slotScope (s : Store) (k : Nat) : s.isCancelled (s.slotScope k) = true ↔
    s.slotScope k ∈ s.cancelled ∨ s.isCancelled s.lifetime = true := by
  unfold Store.isCancelled
  rw [Scope.isCancelled_iff, Scope.isCancelled_iff]
  constructor
  · rintro ⟨t, ht, hpre⟩
    rcases Scope.prefix_child_iff.1 hpre with rfl | hpre
    · exact Or.inl ht
    · exact Or.inr ⟨t, ht, hpre⟩
  · rintro (ht | ⟨t, ht, hpre⟩)
    · exact ⟨_, ht, List.prefix_rfl⟩
    · exact ⟨t, ht, hpre.trans (Scope.prefix_child _ _)⟩

theorem Withdrawn.lookup_eq_some_iff {w : Workspace} (h : Withdrawn w) {uri : Uri} {k : Nat} :
    w.store.lookup uri = some k ↔ (uri, k) ∈ w.store.table := by
  constructor
  · exact Store.mem_table_of_lookup
  · intro hmem
    cases hlook : w.store.lookup uri with
    | none => exact absurd hmem (Store.lookup_eq_none_iff.1 hlook k)
    | some j => rw [h.unique uri k j hmem (Store.mem_table_of_lookup hlook)]

/-- Where no call is between two waits, a document that is not tracked is cancelled. -/
theorem Withdrawn.tracked_of_live {w : Workspace} (h : Withdrawn w) (hrest : AtRest w) {k : Nat}
    (hk : k < w.store.slots.length) (hlive : w.store.isCancelled (w.store.slotScope k) = false) :
    w.store.Tracked k := by
  rcases h.kept k hk with htr | ⟨id, c, hid, hmem⟩ | hseal
  · exact htr
  · rcases h.doomed id c k hid hmem with rfl | hcancelled
    · exact absurd (hrest id _ hid) nofun
    · rw [hcancelled] at hlive
      cases hlive
  · rw [hseal.1] at hlive
    cases hlive

/-- The edition that a document was last given is the one at its revision. -/
theorem Pruned.latest_iff {w : Workspace} (h : Pruned w) (hw : Sound w) {e : Edition} {d : Slot}
    {n : Nat} (he : w.HandedOut e) (hd : w.store.dataOf e.slot = some d)
    (hrev : AtRevision w.store e d n) : w.latest e.slot = some e ↔ n = d.revision := by
  obtain ⟨e', he', hscope'⟩ := h.latest e.slot d hd
  constructor
  · intro hlast
    rw [hlast] at he'
    cases he'
    rw [hrev.1] at hscope'
    exact (editionScope_inj hscope').2
  · intro hn
    obtain ⟨hout', hslot'⟩ := handedOut_of_latest he'
    obtain ⟨d', n', hd', hrev'⟩ := hw.dated.edition e' hout'
    rw [hslot', hd] at hd'
    cases hd'
    have hn' : n' = d.revision := by
      rw [hrev'.1, hslot'] at hscope'
      exact (editionScope_inj hscope').2
    obtain ⟨hscope, ⟨hlt, _⟩ | ⟨_, hv, hcontent⟩⟩ := hrev
    · omega
    obtain ⟨_, ⟨hlt, _⟩ | ⟨_, hv', hcontent'⟩⟩ := hrev'
    · omega
    obtain ⟨d1, hd1, hu⟩ := hw.staged.editions e he
    obtain ⟨d2, hd2, hu'⟩ := hw.staged.editions e' hout'
    rw [hd] at hd1
    rw [hslot', hd] at hd2
    cases hd1
    cases hd2
    rw [he']
    have heq : e' = e := by
      cases e
      cases e'
      simp only at hu hu' hv hv' hcontent hcontent' hslot' hscope hscope' hn
      simp [← hu, ← hu', hv, hv', hcontent, hcontent', hslot', hscope, hscope', hn]
    rw [heq]

theorem live_iff {w : Workspace} (hw : Sound w) (hwd : Withdrawn w) (hp : Pruned w)
    (hrest : AtRest w) {e : Edition} (he : w.HandedOut e) :
    w.store.isCancelled e.scope = false ↔ w.store.isCancelled w.store.lifetime = false ∧
      w.store.lookup e.uri = some e.slot ∧ w.latest e.slot = some e := by
  obtain ⟨d, n, hd, hrev⟩ := hw.dated.edition e he
  obtain ⟨d', hd', hu⟩ := hw.staged.editions e he
  rw [hd] at hd'
  cases hd'
  rw [← Bool.not_eq_true, hrev.1, isCancelled_editionScope, ← Bool.not_eq_true,
    hwd.lookup_eq_some_iff, hp.latest_iff hw he hd hrev]
  constructor
  · intro hlive
    simp only [not_or] at hlive
    obtain ⟨hedition, hslot, hlife⟩ := hlive
    refine ⟨hlife, ?_, ?_⟩
    · have hscope : w.store.isCancelled (w.store.slotScope e.slot) = false := by
        rw [← Bool.not_eq_true, isCancelled_slotScope, not_or]
        exact ⟨hslot, hlife⟩
      obtain ⟨uri, hmem⟩ := hwd.tracked_of_live hrest (Store.lt_of_dataOf hd) hscope
      obtain ⟨d', hd', hu'⟩ := hw.staged.table uri e.slot hmem
      rw [hd] at hd'
      cases hd'
      rw [← hu, hu']
      exact hmem
    · obtain ⟨_, ⟨hlt, _⟩ | ⟨hn, _⟩⟩ := hrev
      · exact absurd (hp.earlier e.slot d n hd hlt) hedition
      · exact hn
  · rintro ⟨hlife, hmem, hn⟩ (hedition | hslot | hcancelled)
    · obtain ⟨d', hd', hlt | ⟨_, id, content, v, hid⟩⟩ := hp.editions e.slot n hedition
      · rw [hd] at hd'
        cases hd'
        omega
      · exact absurd (hrest id _ hid) nofun
    · exact (hp.slots e.slot hslot).2 ⟨e.uri, hmem⟩
    · exact hlife hcancelled

/-- An edition is live just as long as the lifetime is, its document is the tracked one of its URI,
and no later edition of the document was handed out. So a URI has at most one live edition, it has
one while it is tracked and the lifetime is live, and the edition has the text of its document. -/
theorem live_edition_iff {lifetime : Scope} {w : Workspace} (h : Proceeds (fresh lifetime) w) :
    (∀ e, w.HandedOut e → (w.store.isCancelled e.scope = false ↔
      w.store.isCancelled lifetime = false ∧ w.store.lookup e.uri = some e.slot ∧
        w.latest e.slot = some e)) ∧
    (∀ e e', w.HandedOut e → w.HandedOut e' → e.uri = e'.uri →
      w.store.isCancelled e.scope = false → w.store.isCancelled e'.scope = false → e = e') ∧
    (∀ uri, (∃ e, w.HandedOut e ∧ e.uri = uri ∧ w.store.isCancelled e.scope = false) ↔
      (w.store.lookup uri).isSome = true ∧ w.store.isCancelled lifetime = false) ∧
    ∀ e, w.HandedOut e → w.store.isCancelled e.scope = false →
      ∃ d, w.store.slots[e.slot]? = some d ∧ d.version = e.version ∧ d.content = e.content := by
  obtain ⟨hr, hrest⟩ := h.spec
  have hw := hr.sound (sound_fresh lifetime)
  have hlive : ∀ e, w.HandedOut e → (w.store.isCancelled e.scope = false ↔
      w.store.isCancelled lifetime = false ∧ w.store.lookup e.uri = some e.slot ∧
        w.latest e.slot = some e) := by
    intro e he
    rw [← hr.lifetime]
    exact live_iff hw hr.withdrawn hr.pruned hrest he
  refine ⟨hlive, fun e e' he he' hu hl hl' => ?_, fun uri => ⟨?_, ?_⟩, fun e he hl => ?_⟩
  · obtain ⟨_, hlook, hlast⟩ := (hlive e he).1 hl
    obtain ⟨_, hlook', hlast'⟩ := (hlive e' he').1 hl'
    rw [hu, hlook'] at hlook
    rw [Option.some.inj hlook, hlast] at hlast'
    exact Option.some.inj hlast'
  · rintro ⟨e, he, rfl, hl⟩
    obtain ⟨hlife, hlook, _⟩ := (hlive e he).1 hl
    rw [hlook]
    exact ⟨rfl, hlife⟩
  · rintro ⟨hsome, hlife⟩
    obtain ⟨k, hlook⟩ := Option.isSome_iff_exists.1 hsome
    obtain ⟨d, hd, hu⟩ := hw.staged.table uri k (Store.mem_table_of_lookup hlook)
    obtain ⟨e, hlast, _⟩ := hr.pruned.latest k d hd
    obtain ⟨he, rfl⟩ := handedOut_of_latest hlast
    obtain ⟨d', hd', hu'⟩ := hw.staged.editions e he
    rw [hd] at hd'
    cases hd'
    have huri : e.uri = uri := hu'.symm.trans hu
    exact ⟨e, he, huri, (hlive e he).2 ⟨hlife, by rw [huri]; exact hlook, hlast⟩⟩
  · obtain ⟨d, n, hd, hrev⟩ := hw.dated.edition e he
    obtain ⟨_, _, hlast⟩ := (hlive e he).1 hl
    have hn := (hr.pruned.latest_iff hw he hd hrev).1 hlast
    obtain ⟨d', hd', rfl⟩ := Store.slot_of_dataOf hd
    obtain ⟨_, ⟨hlt, _⟩ | ⟨_, hv, hcontent⟩⟩ := hrev
    · omega
    · exact ⟨d', hd', hv.symm, hcontent.symm⟩

/-- A document is opened, changed, closed and opened again. -/
def reopened : List Action :=
  [.invoke .answer (.track ⟨"file:///rules"⟩ "up" 1), .advance 0,
    .invoke .answer (.change ⟨"file:///rules"⟩ "down" 2), .advance 1, .advance 1,
    .invoke .answer (.close ⟨"file:///rules"⟩), .advance 2, .advance 2,
    .invoke .answer (.track ⟨"file:///rules"⟩ "up" 1), .advance 3]

/-- Of the three editions of the URI only the last one is live. -/
theorem live_edition_iff_reopened :
    (reopened.foldl stride (fresh [])).store.isCancelled [0, 0] = true ∧
    (reopened.foldl stride (fresh [])).store.isCancelled [0, 1] = true ∧
    (reopened.foldl stride (fresh [])).store.isCancelled [1, 0] = false := by
  refine ⟨by decide, by decide, ?_⟩
  have hrun : Proceeds (fresh []) (reopened.foldl stride (fresh [])) := .run .refl (by decide)
  have hlive := (live_edition_iff hrun).1 ⟨⟨"file:///rules"⟩, 1, "up", 1, [1, 0]⟩ (by decide)
  exact hlive.2 (by decide)

end Workspace

end PromqlServer.Document
