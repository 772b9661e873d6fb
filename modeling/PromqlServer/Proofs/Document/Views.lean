import PromqlServer.Proofs.Document.Accounts
import PromqlServer.Proofs.Document.Reports

/-!
What the client sees of a document when nothing is under way. The last notice for a name that is not
in the cache any more is its clear (`Goes.untracked_at_rest`). The last one for a tracked document
is its report, or it is the clear of an earlier document of the name (`Goes.tracked_at_rest`); the
latter cannot be if there is no `open` while a document of its name is being closed
(`Goes.tracked_of_patient`).
-/

namespace PromqlServer.Document

open PromqlServer.Query

/-- The event tells the client something about the name. -/
def Event.speaksOf (uri : Uri) (x : Event) : Bool := x.notice?.any fun n => n.uri = uri

/-- The last notice for a name. -/
def lastNotice (uri : Uri) (ns : List Notice) : Option Notice :=
  (ns.filter fun n => n.uri = uri).getLast?

namespace Workspace

/-- The last event that told the client something about a name. -/
def lastSent (uri : Uri) (history : List Event) : Option Event :=
  history.find? (Event.speaksOf uri)

theorem lastNotice_sentNotices (uri : Uri) (history : List Event) :
    lastNotice uri (sentNotices history) = (lastSent uri history).bind Event.notice? := by
  rw [lastNotice, sentNotices, List.filter_reverse, List.getLast?_reverse]
  induction history with
  | nil => rfl
  | cons x history ih =>
    rw [lastSent, List.find?_cons, Event.speaksOf]
    cases hx : x.notice? with
    | none =>
      rw [List.filterMap_cons_none hx]
      exact ih
    | some n =>
      rw [List.filterMap_cons_some hx, List.filter_cons]
      by_cases hn : n.uri = uri
      · simp [hn, hx]
      · simpa [hn, lastSent] using ih

theorem lastSent_append (uri : Uri) (es history : List Event) :
    lastSent uri (es ++ history) = (lastSent uri es).or (lastSent uri history) :=
  List.find?_append

theorem lastSent_eq_none_iff {uri : Uri} {history : List Event} :
    lastSent uri history = none ↔ ∀ x ∈ history, x.speaksOf uri = false := by
  simp [lastSent]

theorem mem_of_lastSent {uri : Uri} {history : List Event} {x : Event}
    (h : lastSent uri history = some x) : x ∈ history ∧ x.speaksOf uri = true :=
  ⟨List.mem_of_find?_eq_some h, List.find?_some h⟩

/-- What tells the client something is a report or takes one back. -/
theorem speaksOf_cases {uri : Uri} {x : Event} (h : x.speaksOf uri = true) :
    (∃ id r, x = .began id r ∧ r.uri = uri) ∨ ∃ n, x = .cleared n ∧ n.uri = uri := by
  cases x with
  | began id r =>
    refine Or.inl ⟨id, r, rfl, ?_⟩
    simpa [Event.speaksOf, Event.notice?, Report.notice] using h
  | cleared n => exact Or.inr ⟨n, rfl, by simpa [Event.speaksOf, Event.notice?] using h⟩
  | _ => cases h

/-! ## What is owed to the client -/

/-- The document is tracked, or it is being closed, or it is closed and the client has still to be
told to forget its name. -/
def Owed (w : Workspace) (uri : Uri) (k : Nat) : Prop :=
  w.store.Tracked k ∨ k ∈ across Task.removes w.tasks ∨
    ∃ d ∈ across Task.holds w.tasks, d.uri = uri

section Steps

variable {w w' : Workspace} {a : Action} {before after : List (Nat × Task)} {es : List Event}
  {ns : List Notice} {uri : Uri} {k : Nat}

theorem mem_clearancesOf {n : Notice} : n ∈ clearancesOf es ↔ Event.cleared n ∈ es := by
  rw [clearancesOf, List.mem_filterMap]
  constructor
  · rintro ⟨x, hx, hn⟩
    cases x with
    | cleared =>
      cases hn
      exact hx
    | _ => cases hn
  · exact fun hn => ⟨_, hn, rfl⟩

/-- A turn of a call leaves what is owed, or takes it on. -/
theorem Owed.turned {ks : List Nat} (h : Owed w uri k) (hks : Accounted w ks)
    (hwd : Withdrawn w) (hm : Moved w w') (traded : Traded w w' before after es ns) {id : Nat}
    {c : Call} {t : Turn} (ht : Turned w.store id c t) (hs : t.store? = some w'.store)
    (hc : ∀ uri, c ≠ .find uri .close) (hbefore : across Task.removes before = c.removes)
    (hafter : across Task.removes after = t.removes)
    (hheld : across Task.holds before = c.gathered)
    (hheld' : across Task.holds after = t.documents) {d : Slot}
    (hdata : w.store.dataOf k = some d) (huri : d.uri = uri) : Owed w' uri k := by
  obtain ⟨new, closed, hbooked⟩ := ht.booked hs hc hwd.unique (List.nodup_append.1 hks.nodup).1
  have hslot : k ∈ w.store.table.map Prod.snd ++ (c.removes ++ new) → Owed w' uri k := by
    intro hk
    rcases List.mem_append.1 (hbooked.slots.mem_iff.1 hk) with hk | hk
    · obtain ⟨entry, hentry, rfl⟩ := List.mem_map.1 hk
      exact Or.inl ⟨entry.1, hentry⟩
    · rcases List.mem_append.1 hk with hk | hk
      · exact Or.inr (Or.inl (traded.across_after (by rw [hafter]; exact hk)))
      · obtain ⟨d', hd', hu'⟩ := hm.dataOf_uri hdata
        refine Or.inr (Or.inr ⟨d'.close, traded.across_after ?_, hu'.trans huri⟩)
        rw [hheld', hbooked.documents]
        refine List.mem_append_right _ (List.mem_filterMap.2 ⟨k, hk, ?_⟩)
        rw [Store.closing, hd']
        rfl
  rcases h with ⟨u, hu⟩ | hk | ⟨x, hx, hu⟩
  · exact hslot (List.mem_append_left _ (List.mem_map.2 ⟨_, hu, rfl⟩))
  · rcases traded.mem_across hk with hk | hk
    · rw [hbefore] at hk
      exact hslot (List.mem_append_right _ (List.mem_append_left _ hk))
    · exact Or.inr (Or.inl hk)
  · refine Or.inr (Or.inr ⟨x, traded.across_mono (fun y hy => ?_) hx, hu⟩)
    rw [hheld] at hy
    rw [hheld', hbooked.documents]
    exact List.mem_append_left _ hy

/-- What is owed is still owed after a step, or is paid by it. -/
theorem Owed.step {ks : List Nat} (h : Owed w uri k) (hks : Accounted w ks) (hw : Sound w)
    (hwd : Withdrawn w) (hd : Discerned w) (hm : Moved w w')
    (traded : Traded w w' before after es ns)
    (hbalanced : Balanced w.store w'.store before after es) {d : Slot}
    (hdata : w.store.dataOf k = some d) (huri : d.uri = uri) :
    Owed w' uri k ∨ ∃ n, Event.cleared n ∈ es ∧ n.uri = uri := by
  cases hbalanced with
  | quiet _ htable hr _ hh =>
    left
    rcases h with ⟨u, hu⟩ | hk | ⟨x, hx, hu⟩
    · exact Or.inl ⟨u, by rw [htable]; exact hu⟩
    · exact Or.inr (Or.inl (traded.across_mono (fun _ hj => hr ▸ hj) hk))
    · exact Or.inr (Or.inr ⟨x, traded.across_mono (fun _ hy => hh ▸ hy) hx, hu⟩)
  | clearSent d' hs hr _ hh _ hclear =>
    rcases h with hk | hk | ⟨x, hx, hu⟩
    · exact Or.inl (Or.inl (by rw [hs]; exact hk))
    · exact Or.inl (Or.inr (Or.inl (traded.across_mono (fun _ hj => hr ▸ hj) hk)))
    · rcases traded.mem_across hx with hx | hx
      · rw [hh] at hx
        rcases List.mem_cons.1 hx with rfl | hx
        · -- the client is told about this very document
          have hmem : x.notice ∈ clearancesOf es := by rw [hclear]; exact List.mem_singleton.2 rfl
          exact Or.inr ⟨_, mem_clearancesOf.1 hmem, hu⟩
        · exact Or.inl (Or.inr (Or.inr ⟨x, traded.across_after hx, hu⟩))
      · exact Or.inl (Or.inr (Or.inr ⟨x, hx, hu⟩))
  | turned id c t hmem ht hs hbefore hafter _ _ hheld hheld' =>
    obtain ⟨task, hmem, hcall⟩ := hmem
    have hc : w.callAt id = some c := (hd.callAt (traded.mem_before hmem)).trans hcall
    obtain ⟨_, _, hserve⟩ := hw.staged.calls id c hc
    exact Or.inl (h.turned hks hwd hm traded ht hs hserve.ne_find_close hbefore hafter hheld hheld'
      hdata huri)

/-- A document whose report goes out is owed to the client. -/
theorem Withdrawn.owed (h : Withdrawn w) (hw : Sound w) (hd : Discerned w) {id : Nat} {r : Report}
    (hc : w.callAt id = some (.publishing k r)) (uri : Uri) : Owed w uri k := by
  obtain ⟨_, d, _, _, hdata, _⟩ := hw.dated.publishes id k r (Or.inr hc)
  rcases h.kept k (Store.lt_of_dataOf hdata) with hk | ⟨j, c, hj, hk⟩ | hseal
  · exact Or.inl hk
  · obtain ⟨t, ht, hcall⟩ := hd.mem_of_callAt hj
    refine Or.inr (Or.inl (mem_across.2 ⟨_, ht, ?_⟩))
    rw [Task.removes, hcall]
    exact hk
  · have hfree : Call.holdsLock (.publishing k r) = false := hseal.2 id _ hc rfl
    cases hfree

end Steps

/-! ## Reports that went out -/

/-- A publication that is under way began, and so did the one that a report was recorded for. -/
structure Backed (w : Workspace) : Prop where
  publishing : ∀ id k r, w.callAt id = some (.publishing k r) → Event.began id r ∈ w.history
  reports : ∀ k d r, w.store.dataOf k = some d → d.report = some r →
    ∃ id e, Event.began id r ∈ w.history ∧ Event.invoked id (.commit e r) ∈ w.history ∧ e.slot = k

theorem backed_fresh (lifetime : Scope) : Backed (fresh lifetime) where
  publishing := by simp [fresh, callAt, task?]
  reports := by simp [fresh, Store.dataOf]

section Backed

variable {w w' : Workspace}

/-- A publication that is under way was so before, or begins. -/
theorem Moved.publishing (hm : Moved w w') {j k : Nat} {r : Report}
    (hc : w'.callAt j = some (.publishing k r)) : w.callAt j = some (.publishing k r) ∨
      ∃ es, w'.history = es ++ w.history ∧ Event.began j r ∈ es := by
  cases hm with
  | aside _ hcalls => exact Or.inl (by rw [← hcalls]; exact hc)
  | cancelled _ _ _ hcalls => exact Or.inl (by rw [← hcalls]; exact hc)
  | invoked i q _ _ _ _ _ hcalls =>
    rw [hcalls] at hc
    split at hc
    · cases q <;> cases hc
    · exact Or.inl hc
  | turned i c t hcall ht hs hcalls es hes hh =>
    rw [hcalls] at hc
    split at hc
    · rename_i hi
      subst hi
      cases t with
      | blocked => cases hc
      | done s reply => cases hc
      | next s c' =>
        cases hc
        cases ht with
        | began =>
          exact Or.inr ⟨_, by rw [hh, ← List.append_assoc, ← List.append_assoc],
            by simp [Call.notes]⟩
    · exact Or.inl hc

/-- A step leaves the report of a document, or takes it away, or records one that was sent. -/
theorem Moved.report {w w' : Workspace} (hm : Moved w w') {k : Nat} {d' : Slot}
    (hd' : w'.store.dataOf k = some d') : d'.report = none ∨
      (∃ d, w.store.dataOf k = some d ∧ d'.report = d.report) ∨
      ∃ id r, w.callAt id = some (.publishing k r) ∧ d'.report = some r := by
  cases hm with
  | aside hs => exact Or.inr (Or.inl ⟨d', by rw [← hs]; exact hd', rfl⟩)
  | invoked _ _ _ _ _ _ hs => exact Or.inr (Or.inl ⟨d', by rw [← hs]; exact hd', rfl⟩)
  | cancelled _ _ hs =>
    rw [hs, Store.dataOf_cancel] at hd'
    exact Or.inr (Or.inl ⟨d', hd', rfl⟩)
  | turned id c t hcall ht hs =>
    cases ht.dataStep hs with
    | same hsame => exact Or.inr (Or.inl ⟨d', by rw [← hsame]; exact hd', rfl⟩)
    | tracked _ _ _ _ _ _ hs' =>
      rw [hs', Store.dataOf_withSlot] at hd'
      split at hd'
      · cases hd'
        exact Or.inl rfl
      · exact Or.inr (Or.inl ⟨d', hd', rfl⟩)
    | replaced j d0 content version _ hd0 hs' =>
      rw [hs', Store.dataOf_replace hd0] at hd'
      split at hd'
      · cases hd'
        exact Or.inl rfl
      · exact Or.inr (Or.inl ⟨d', hd', rfl⟩)
    | recorded j report hc hs' =>
      subst hc
      rw [hs', Store.dataOf_record] at hd'
      split at hd'
      · rename_i hk
        obtain ⟨d0, _, rfl⟩ := Option.map_eq_some_iff.1 hd'
        exact Or.inr (Or.inr ⟨id, report, by rw [hk]; exact hcall, rfl⟩)
      · exact Or.inr (Or.inl ⟨d', hd', rfl⟩)

/-- A publication goes on, or its report is recorded. -/
theorem Moved.recorded (hm : Moved w w') {id k : Nat} {r : Report}
    (hc : w.callAt id = some (.publishing k r)) : w'.callAt id = some (.publishing k r) ∨
      ∀ d, w'.store.dataOf k = some d → d.report = some r := by
  cases hm with
  | aside _ hcalls => exact Or.inl (by rw [hcalls]; exact hc)
  | cancelled _ _ _ hcalls => exact Or.inl (by rw [hcalls]; exact hc)
  | invoked i q _ _ _ hnone _ hcalls =>
    refine Or.inl ?_
    rw [hcalls, if_neg, hc]
    rintro rfl
    rw [hnone] at hc
    cases hc
  | turned i c t hcall ht hs hcalls =>
    by_cases hi : id = i
    · subst hi
      rw [hc] at hcall
      cases hcall
      refine Or.inr fun d hd => ?_
      generalize w'.store = s' at hs hd
      cases ht with
      | blocked => cases hs
      | answered hbrief => cases hbrief
      | ended =>
        cases hs
        rw [Store.dataOf_record, if_pos rfl] at hd
        obtain ⟨d0, _, rfl⟩ := Option.map_eq_some_iff.1 hd
        rfl
    · exact Or.inl (by rw [hcalls, if_neg hi, hc])

theorem Backed.step (h : Backed w) (hw : Sound w) (hm : Moved w w') : Backed w' := by
  refine ⟨fun id k r hc => ?_, fun k d r hd hr => ?_⟩
  · rcases hm.publishing hc with hc | ⟨es, hh, hb⟩
    · exact hm.mem_history (h.publishing id k r hc)
    · rw [hh]
      exact List.mem_append_left _ hb
  · rcases hm.report hd with hnone | ⟨d0, hd0, hsame⟩ | ⟨id, r', hc, hr'⟩
    · rw [hr] at hnone
      cases hnone
    · obtain ⟨id, e, hb, he, hslot⟩ := h.reports k d0 r hd0 (by rw [← hsame, hr])
      exact ⟨id, e, hm.mem_history hb, hm.mem_history he, hslot⟩
    · rw [hr] at hr'
      cases hr'
      obtain ⟨e, _, he, hslot, _⟩ := hw.dated.publishes id k r (Or.inr hc)
      exact ⟨id, e, hm.mem_history (h.publishing id k r hc), hm.mem_history he, hslot⟩

end Backed

theorem Reaches.backed {lifetime : Scope} {w : Workspace} (hr : Reaches (fresh lifetime) w) :
    Backed w :=
  hr.keeps (sound_fresh lifetime) (backed_fresh lifetime) fun _ _ hu _ hm h => h.step hu hm

/-! ## The last report -/

/-- The report `r` of the document `k` is the last that the client was told about the name. -/
structure Latest (w : Workspace) (uri : Uri) (id k : Nat) (r : Report) : Prop where
  owed : Owed w uri k
  alone : ∀ j r', w.callAt j = some (.publishing k r') → j = id
  shown : w.callAt id = some (.publishing k r) ∨
    ∀ d, w.store.dataOf k = some d → d.report = some r ∨ d.report = none

/-- What the client was told last about a name is still owed, and the document has no other
report. -/
def Viewed (w : Workspace) : Prop :=
  ∀ uri id r e, lastSent uri w.history = some (.began id r) →
    Event.invoked id (.commit e r) ∈ w.history → Latest w uri id e.slot r

section Handled

variable {lifetime : Scope} {w : Workspace}

/-- In a session, commits are made by publications for their editions. -/
theorem Goes.handled_founded (h : Goes Handles (fresh lifetime) w) :
    Founded (fun _ _ => True) w := by
  induction h with
  | refl => exact founded_fresh lifetime
  | step h a ha ih =>
    refine ih.step (h.handled.discerned.stepped a) (fun p q he => ?_) fun _ _ _ _ _ => trivial
    subst he
    have hp : q.call.purpose? = some p := ha
    rw [hp]
    nofun

/-- The report of a publication has the name of the document. -/
theorem Goes.own_name (h : Goes Handles (fresh lifetime) w) {id : Nat} {e : Edition} {r : Report}
    (he : Event.invoked id (.commit e r) ∈ w.history) :
    r.uri = e.uri ∧ ∃ d, w.store.dataOf e.slot = some d ∧ d.uri = e.uri := by
  have hw := h.handled.sound (sound_fresh lifetime)
  obtain ⟨_, _, _, rfl⟩ := h.handled_founded.commits id e r he
  exact ⟨rfl, hw.staged.editions e (hw.staged.commits id e _ he)⟩

theorem Goes.moved (h : Goes Handles (fresh lifetime) w) {a : Action} (ha : w.Handles a) :
    Moved w (w.step a) := ((h.handled.sound (sound_fresh lifetime)).step ha.admits).2

/-- A step that tells the client nothing about the name. -/
theorem Latest.step {uri : Uri} {id : Nat} {e : Edition} {r : Report}
    (hlatest : Latest w uri id e.slot r) (h : Goes Handles (fresh lifetime) w) {a : Action}
    (ha : w.Handles a) (he : Event.invoked id (.commit e r) ∈ w.history) (huri : e.uri = uri)
    {es : List Event} (hh : (w.step a).history = es ++ w.history)
    (hquiet : ∀ x ∈ es, x.speaksOf uri = false) : Latest (w.step a) uri id e.slot r := by
  have hm := h.moved ha
  have hw := h.handled.sound (sound_fresh lifetime)
  obtain ⟨_, d, hd, hdu⟩ := h.own_name he
  refine ⟨?_, fun j r' hj => ?_, ?_⟩
  · obtain ⟨ks, hks⟩ := h.accounted
    obtain ⟨taskStep, traded⟩ := h.handled.discerned.stepped a
    have hbalanced := taskStep.balanced (fun x hx => h.suited x (traded.mem_before hx)) ha
    rcases hlatest.owed.step hks hw h.handled.withdrawn h.handled.discerned hm traded hbalanced hd
      (hdu.trans huri) with howed | ⟨n, hn, hnu⟩
    · exact howed
    · rw [traded.history] at hh
      rw [List.append_cancel_right hh] at hn
      have := hquiet _ hn
      simp [Event.speaksOf, Event.notice?, hnu] at this
  · rcases hm.publishing hj with hj | ⟨es', hh', hb⟩
    · exact hlatest.alone j r' hj
    · -- a publication of the document tells the client about its name
      have hnext := h.step a ha
      have hw' := hnext.handled.sound (sound_fresh lifetime)
      obtain ⟨e', _, he', hslot, _⟩ := hw'.dated.publishes j _ r' (Or.inr hj)
      obtain ⟨hr', d', hd', hu'⟩ := hnext.own_name he'
      obtain ⟨d'', hd'', hu''⟩ := hm.dataOf_uri hd
      rw [hslot, hd''] at hd'
      cases hd'
      rw [hh'] at hh
      rw [List.append_cancel_right hh] at hb
      have := hquiet _ hb
      simp [Event.speaksOf, Event.notice?, Report.notice, hr', ← hu', hu'', hdu, huri] at this
  · rcases hlatest.shown with hc | hreport
    · exact (hm.recorded hc).imp_right fun hall d' hd' => Or.inl (hall d' hd')
    · refine Or.inr fun d' hd' => ?_
      rcases hm.report hd' with hnone | ⟨d0, hd0, hsame⟩ | ⟨j, r', hc, hr'⟩
      · exact Or.inr hnone
      · rw [hsame]
        exact hreport d0 hd0
      · obtain rfl := hlatest.alone j r' hc
        obtain ⟨e', _, he', _⟩ := hw.dated.publishes j _ r' (Or.inr hc)
        cases h.handled.publishOrder.once j _ _ he he'
        exact Or.inl hr'

theorem Goes.viewed (h : Goes Handles (fresh lifetime) w) : Viewed w := by
  induction h with
  | refl => intro uri id r e hlast; cases hlast
  | @step w h a ha ih =>
    intro uri id r e hlast he
    have hm := h.moved ha
    have hnext := h.step a ha
    have hw' := hnext.handled.sound (sound_fresh lifetime)
    have honce := hnext.handled.publishOrder.once
    obtain ⟨es, hh, hnews, _⟩ := hm.news
    rw [hh, lastSent_append] at hlast
    cases hes : lastSent uri es with
    | some x =>
      -- the report goes out in this step
      rw [hes] at hlast
      cases hlast
      obtain ⟨hmem, _⟩ := mem_of_lastSent hes
      cases hnews _ hmem rfl with
      | began _ k _ _ hc' =>
        obtain ⟨e', _, he', hslot, _⟩ := hw'.dated.publishes id k r (Or.inr hc')
        cases honce id _ _ he he'
        rw [hslot]
        refine ⟨hnext.handled.withdrawn.owed hw' hnext.handled.discerned hc' uri, ?_, Or.inl hc'⟩
        intro j r' hj
        exact hw'.locked.unique hj rfl rfl hc' rfl rfl
    | none =>
      rw [hes] at hlast
      obtain ⟨hmem, hspeaks⟩ := mem_of_lastSent hlast
      have he := h.handled.publishOrder.commit_eq hm honce hmem he
      obtain ⟨_, _, hb, hu⟩ | ⟨_, hb, _⟩ := speaksOf_cases hspeaks
      · cases hb
        exact (ih uri id r e hlast he).step h ha he ((h.own_name he).1.symm.trans hu) hh
          (lastSent_eq_none_iff.1 hes)
      · cases hb

end Handled

/-! ## With nothing under way -/

section Rest

variable {lifetime : Scope} {w : Workspace} (h : Goes Handles (fresh lifetime) w)
  (hidle : w.tasks = [])

include h

/-- What takes back the diagnostics of a name is for a document that was closed. -/
theorem Goes.clearance_at_rest (hidle : w.tasks = []) {n : Notice}
    (hn : Event.cleared n ∈ w.history) : ∃ d ∈ documentsOf w.history, n = d.notice := by
  obtain ⟨_, _, _, _, _, hcleared⟩ := h.closed_at_rest hidle
  have hmem : n ∈ clearancesOf w.history := List.mem_filterMap.2 ⟨_, hn, rfl⟩
  obtain ⟨d, hd, rfl⟩ := List.mem_map.1 (hcleared.mem_iff.1 hmem)
  exact ⟨d, hd, rfl⟩

include hidle

/-- What the client was told last about a name is the report of its tracked document, or it takes
back the diagnostics of a closed one. -/
theorem Goes.lastSent_at_rest {uri : Uri} {x : Event} (hlast : lastSent uri w.history = some x) :
    (∃ id r k d, x = .began id r ∧ w.store.lookup uri = some k ∧ w.store.dataOf k = some d ∧
      (d.report = some r ∨ d.report = none)) ∨
    ∃ d ∈ documentsOf w.history, d.uri = uri ∧ x = .cleared d.notice := by
  have hw := h.handled.sound (sound_fresh lifetime)
  obtain ⟨hmem, hspeaks⟩ := mem_of_lastSent hlast
  obtain ⟨id, r, rfl, hu⟩ | ⟨n, rfl, hu⟩ := speaksOf_cases hspeaks
  · obtain ⟨e, he⟩ := h.handled.publishOrder.origin id r hmem
    obtain ⟨hru, d, hd, hdu⟩ := h.own_name he
    obtain ⟨howed, _, hshown⟩ := h.viewed uri id r e hlast he
    have hnone : ∀ j, w.callAt j = none := fun j => by simp [callAt, task?, hidle]
    have hreport := hshown.resolve_left fun hc => by rw [hnone] at hc; cases hc
    rcases howed with ⟨u, hk⟩ | hk | ⟨_, hk, _⟩
    · obtain ⟨d', hd', hdu'⟩ := hw.staged.table u _ hk
      rw [hd] at hd'
      cases hd'
      obtain rfl : u = uri := by rw [← hdu', hdu, ← hru, hu]
      exact Or.inl ⟨id, r, e.slot, d, rfl, h.handled.withdrawn.lookup_eq_some_iff.2 hk, hd,
        hreport d hd⟩
    · rw [hidle] at hk
      cases hk
    · rw [hidle] at hk
      cases hk
  · obtain ⟨d, hd, rfl⟩ := h.clearance_at_rest hidle hmem
    exact Or.inr ⟨d, hd, hu, rfl⟩

/-- A name that was opened and is not tracked any more was taken back last. -/
theorem Goes.untracked_at_rest {uri : Uri} {e : Edition} (he : w.HandedOut e) (hu : e.uri = uri)
    (hlook : w.store.lookup uri = none) :
    ∃ d ∈ documentsOf w.history, d.uri = uri ∧
      lastSent uri w.history = some (.cleared d.notice) := by
  have hw := h.handled.sound (sound_fresh lifetime)
  cases hlast : lastSent uri w.history with
  | none =>
    -- the document of the edition was closed, and the client told of it
    obtain ⟨ks, _, _, hks, hreturned, hcleared⟩ := h.closed_at_rest hidle
    obtain ⟨d, hd, hdu⟩ := hw.staged.editions e he
    have hnot : ¬ w.store.Tracked e.slot := by
      rintro ⟨u, hk⟩
      obtain ⟨d', hd', hdu'⟩ := hw.staged.table u _ hk
      rw [hd] at hd'
      cases hd'
      obtain rfl : u = uri := by rw [← hdu', hdu, hu]
      exact Store.lookup_eq_none_iff.1 hlook _ hk
    have hclosed : d.close ∈ documentsOf w.history := by
      refine hreturned.mem_iff.2 (List.mem_filterMap.2 ⟨e.slot, ?_, by rw [Store.closing, hd]; rfl⟩)
      exact (hks e.slot).2 ⟨Store.lt_of_dataOf hd, hnot⟩
    have hnotice := hcleared.mem_iff.2 (List.mem_map_of_mem hclosed)
    obtain ⟨x, hx, hxn⟩ := List.mem_filterMap.1 hnotice
    cases x with
    | cleared n =>
      cases hxn
      have hsilent := lastSent_eq_none_iff.1 hlast _ hx
      have hspeaks : (Event.cleared d.close.notice).speaksOf uri = true := by
        simp [Event.speaksOf, Event.notice?, Closed.notice, Slot.close, hdu, hu]
      rw [hspeaks] at hsilent
      cases hsilent
    | _ => cases hxn
  | some x =>
    rcases h.lastSent_at_rest hidle hlast with ⟨_, _, k, _, _, hk, _⟩ | ⟨d, hd, hdu, rfl⟩
    · rw [hlook] at hk
      cases hk
    · exact ⟨d, hd, hdu, rfl⟩

/-- A tracked document with a report: the report is what the client was told last about its name,
or what was said about an earlier document of the name was taken back after it. -/
theorem Goes.tracked_at_rest {uri : Uri} {k : Nat} {d : Slot} {r : Report}
    (hlook : w.store.lookup uri = some k) (hd : w.store.dataOf k = some d)
    (hr : d.report = some r) :
    (∃ id, lastSent uri w.history = some (.began id r)) ∨
    ∃ c ∈ documentsOf w.history, c.uri = uri ∧
      lastSent uri w.history = some (.cleared c.notice) := by
  have hw := h.handled.sound (sound_fresh lifetime)
  obtain ⟨id, e, hb, he, hslot⟩ := h.handled.backed.reports k d r hd hr
  obtain ⟨hru, d', hd', hdu'⟩ := h.own_name he
  have hmem := Store.mem_table_of_lookup hlook
  have hspeaks : (Event.began id r).speaksOf uri = true := by
    obtain ⟨d'', hd'', hdu''⟩ := hw.staged.table uri k hmem
    rw [hslot, hd''] at hd'
    cases hd'
    simp [Event.speaksOf, Event.notice?, Report.notice, hru, ← hdu', hdu'']
  cases hlast : lastSent uri w.history with
  | none =>
    have hsilent := lastSent_eq_none_iff.1 hlast _ hb
    rw [hspeaks] at hsilent
    cases hsilent
  | some x =>
    rcases h.lastSent_at_rest hidle hlast with ⟨j, r', k', d'', rfl, hk', hd'', hr'⟩ | hcleared
    · rw [hlook] at hk'
      cases hk'
      rw [hd] at hd''
      cases hd''
      rw [hr] at hr'
      rcases hr' with hr' | hr'
      · cases hr'
        exact Or.inl ⟨j, rfl⟩
      · cases hr'
    · obtain ⟨c, hc, hcu, rfl⟩ := hcleared
      exact Or.inr ⟨c, hc, hcu, rfl⟩

end Rest

end Workspace

/-! ## Openings that wait -/

/-- What a turn takes out of the table. -/
theorem Turned.removes_table {s s' : Store} {id : Nat} {c c' : Call}
    (h : Turned s id c (.next s' c')) (hc : ∀ uri, c ≠ .find uri .close) {k : Nat}
    (hk : k ∈ c'.removes) : k ∈ c.removes ∨ ∃ uri, (uri, k) ∈ s.table ∧ (uri, k) ∉ s'.table := by
  rcases h.removes_inv hc hk with hk | ⟨uri, _, hlook, _, hs'⟩ | ⟨rfl, hs'⟩
  · exact Or.inl hk
  · refine Or.inr ⟨uri, Store.mem_table_of_lookup hlook, ?_⟩
    rw [hs']
    simp
  · cases h with
    | drained =>
      obtain ⟨entry, hentry, rfl⟩ := List.mem_map.1 hk
      exact Or.inr ⟨entry.1, hentry, nofun⟩

/-- The documents that a turn returns were gathered before, or are closed by it. -/
theorem Turned.documents_inv {s : Store} {id : Nat} {c : Call} {t : Turn} (h : Turned s id c t)
    {x : Closed} (hx : x ∈ t.documents) : x ∈ c.gathered ∨
      ∃ (k : Nat) (d : Slot), k ∈ c.removes ∧ s.slots[k]? = some d ∧ x = d.close := by
  cases h with
  | answered _ _ hr =>
    simp only [Turn.documents, Reply.documents_of_isBrief hr] at hx
    cases hx
  | @left k d work reply hd hcheck =>
    rcases check_documents hcheck with ⟨rfl, rfl⟩ | ⟨_, hreply⟩
    · cases List.mem_singleton.1 hx
      exact Or.inr ⟨k, d, List.mem_singleton.2 rfl, (Store.held_eq_some_iff.1 hd).1, rfl⟩
    · simp only [Turn.documents, Reply.documents_of_not_closing hreply] at hx
      cases hx
  | collected => exact Or.inl hx
  | joined => exact Or.inl hx
  | @taken k d ks closed hd =>
    rcases List.mem_append.1 hx with hx | hx
    · exact Or.inl hx
    · cases List.mem_singleton.1 hx
      exact Or.inr ⟨k, d, List.mem_cons_self .., (Store.held_eq_some_iff.1 hd).1, rfl⟩
  | _ => cases hx

namespace Workspace

/-- A document of the name is being closed, or is closed and the client not told yet. -/
def Closing (w : Workspace) (uri : Uri) : Prop :=
  (∃ k ∈ across Task.removes w.tasks, named w.store uri k = true) ∨
    ∃ d ∈ across Task.holds w.tasks, d.uri = uri

instance (w : Workspace) (uri : Uri) : Decidable (w.Closing uri) :=
  inferInstanceAs (Decidable (_ ∨ _))

/-- The steps of a session in which no document is opened while one of its name is being closed. -/
def Patient (uri : Uri) (w : Workspace) (a : Action) : Prop :=
  w.Handles a ∧ (w.store.lookup uri = none → ((w.step a).store.lookup uri).isSome = true →
    ¬ w.Closing uri)

theorem Goes.of_patient {uri : Uri} {v w : Workspace} (h : Goes (Patient uri) v w) :
    Goes Handles v w := by
  induction h with
  | refl => exact .refl
  | step _ a ha ih => exact ih.step a ha.1

theorem named_iff {s : Store} {uri : Uri} {k : Nat} :
    named s uri k = true ↔ ∃ d, s.dataOf k = some d ∧ d.uri = uri := by
  rw [named]
  cases s.dataOf k <;> simp

/-- A document in the table was there before, or is opened under a name that was not tracked. -/
theorem Moved.mem_table {w w' : Workspace} (hm : Moved w w') {uri : Uri} {k : Nat}
    (hk : (uri, k) ∈ w'.store.table) : (uri, k) ∈ w.store.table ∨
      (w.store.lookup uri = none ∧ k = w.store.slots.length) := by
  cases hm with
  | aside hs => exact Or.inl (hs ▸ hk)
  | invoked _ _ _ _ _ _ hs => exact Or.inl (hs ▸ hk)
  | cancelled _ _ hs => rw [hs] at hk; exact Or.inl hk
  | turned id c t _ ht hs =>
    cases ht.tableStep hs with
    | same htable => exact Or.inl (htable ▸ hk)
    | tracked u _ _ hnone hs' =>
      rw [hs'] at hk
      rcases List.mem_append.1 hk with hk | hk
      · exact Or.inl hk
      · cases List.mem_singleton.1 hk
        exact Or.inr ⟨hnone, rfl⟩
    | removed _ _ _ _ hs' =>
      rw [hs'] at hk
      exact Or.inl (List.mem_filter.1 hk).1
    | drained _ hs' =>
      rw [hs'] at hk
      cases hk

/-- The name of a document stays. -/
theorem Moved.named_inv {w w' : Workspace} (hm : Moved w w') {uri : Uri} {k : Nat}
    (hk : k < w.store.slots.length) (hnamed : named w'.store uri k = true) :
    named w.store uri k = true := by
  obtain ⟨d', hd', hu'⟩ := named_iff.1 hnamed
  obtain ⟨d, hd⟩ := Option.isSome_iff_exists.1 (Store.dataOf_isSome_iff.2 hk)
  obtain ⟨d'', hd'', hu''⟩ := hm.dataOf_uri hd
  rw [hd'] at hd''
  cases hd''
  exact named_iff.2 ⟨d, hd, hu''.symm.trans hu'⟩

section Patient

variable {lifetime : Scope} {w : Workspace} {a : Action}

/-- A closing that is under way after a step was under way before, or the step has taken the
document of the name out of the table. -/
theorem Goes.closing_inv (h : Goes Handles (fresh lifetime) w) (ha : w.Handles a) {uri : Uri}
    (hclosing : (w.step a).Closing uri) : w.Closing uri ∨
      ∃ k, (uri, k) ∈ w.store.table ∧ (uri, k) ∉ (w.step a).store.table := by
  have hw := h.handled.sound (sound_fresh lifetime)
  have hd := h.handled.discerned
  have hm := h.moved ha
  obtain ⟨ks, hks⟩ := h.accounted
  obtain ⟨taskStep, traded⟩ := hd.stepped a
  have hbalanced := taskStep.balanced (fun x hx => h.suited x (traded.mem_before hx)) ha
  have hold : ∀ {k}, k ∈ across Task.removes w.tasks → named (w.step a).store uri k = true →
      w.Closing uri := by
    intro k hk hnamed
    refine Or.inl ⟨k, hk, hm.named_inv ?_ hnamed⟩
    rw [← List.mem_range, hks.slots.mem_iff]
    exact List.mem_append_right _ (List.mem_append_left _ hk)
  have hheld : ∀ {x : Closed}, x ∈ across Task.holds w.tasks → x.uri = uri → w.Closing uri :=
    fun hx hu => Or.inr ⟨_, hx, hu⟩
  rcases hclosing with ⟨k, hk, hnamed⟩ | ⟨x, hx, hu⟩
  · rcases traded.across_mem hk with hk | hk
    · cases hbalanced with
      | quiet _ _ hr => exact Or.inl (hold (traded.across_before (hr ▸ hk)) hnamed)
      | clearSent _ _ hr => exact Or.inl (hold (traded.across_before (hr ▸ hk)) hnamed)
      | turned id c t hmem ht hs hbefore hafter =>
        obtain ⟨task, hmem, hcall⟩ := hmem
        have hc : w.callAt id = some c := (hd.callAt (traded.mem_before hmem)).trans hcall
        obtain ⟨_, _, hserve⟩ := hw.staged.calls id c hc
        rw [hafter] at hk
        cases t with
        | blocked => cases hk
        | done s reply => cases hk
        | next s c' =>
          rcases ht.removes_table hserve.ne_find_close hk with hk | ⟨u, hk, hk'⟩
          · exact Or.inl (hold (traded.across_before (by rw [hbefore]; exact hk)) hnamed)
          · obtain ⟨d, hdata, rfl⟩ := hw.staged.table u k hk
            obtain ⟨d', hd', rfl⟩ := named_iff.1 (hm.named_inv (Store.lt_of_dataOf hdata) hnamed)
            rw [hdata] at hd'
            cases hd'
            exact Or.inr ⟨k, hk, by rw [← Option.some.inj hs]; exact hk'⟩
    · exact Or.inl (hold hk hnamed)
  · rcases traded.across_mem hx with hx | hx
    · cases hbalanced with
      | quiet _ _ _ _ hh => exact Or.inl (hheld (traded.across_before (hh ▸ hx)) hu)
      | clearSent _ _ _ _ hh =>
        exact Or.inl (hheld (traded.across_before (hh ▸ List.mem_cons_of_mem _ hx)) hu)
      | turned id c t _ ht hs hbefore _ _ _ hgathered hdocuments =>
        rw [hdocuments] at hx
        rcases ht.documents_inv hx with hx | ⟨k, d, hk, hd', rfl⟩
        · exact Or.inl (hheld (traded.across_before (hgathered ▸ hx)) hu)
        · exact Or.inl (Or.inl ⟨k, traded.across_before (by rw [hbefore]; exact hk),
            named_iff.2 ⟨d.data, Store.dataOf_eq hd', hu⟩⟩)
    · exact Or.inl (hheld hx hu)

/-- What takes back the diagnostics of a name belongs to a closing that is under way. -/
theorem Goes.closing_of_cleared (h : Goes Handles (fresh lifetime) w) (ha : w.Handles a)
    {es : List Event} (hh : (w.step a).history = es ++ w.history) {n : Notice}
    (hn : Event.cleared n ∈ es) : w.Closing n.uri ∧ (w.step a).store = w.store := by
  obtain ⟨taskStep, traded⟩ := h.handled.discerned.stepped a
  have hbalanced := taskStep.balanced (fun x hx => h.suited x (traded.mem_before hx)) ha
  rw [traded.history] at hh
  rw [← List.append_cancel_right hh] at hn
  have hmem := mem_clearancesOf.2 hn
  cases hbalanced with
  | quiet _ _ _ _ _ _ hclear =>
    rw [hclear] at hmem
    cases hmem
  | clearSent d hs _ _ hheld _ hclear =>
    rw [hclear] at hmem
    cases List.mem_singleton.1 hmem
    refine ⟨Or.inr ⟨d, traded.across_before ?_, rfl⟩, hs⟩
    rw [hheld]
    exact List.mem_cons_self ..
  | turned _ _ _ _ _ _ _ _ _ _ _ _ hclear =>
    rw [hclear] at hmem
    cases hmem

/-- While a name is tracked no document of the name is being closed, and what the client was told
last about the name is a report if its document has had one. -/
structure Unmixed (uri : Uri) (w : Workspace) : Prop where
  apart : ∀ k, (uri, k) ∈ w.store.table → ¬ w.Closing uri
  reported : ∀ k id r e, (uri, k) ∈ w.store.table → Event.began id r ∈ w.history →
    Event.invoked id (.commit e r) ∈ w.history → e.slot = k →
    ∃ j r', lastSent uri w.history = some (.began j r')

theorem Unmixed.step {uri : Uri} (hu : Unmixed uri w) (h : Goes Handles (fresh lifetime) w)
    (ha : Patient uri w a) : Unmixed uri (w.step a) := by
  have hw := h.handled.sound (sound_fresh lifetime)
  have hwd := h.handled.withdrawn
  have hm := h.moved ha.1
  have hnext := h.step a ha.1
  refine ⟨fun k hk hclosing => ?_, fun k id r e hk hb he hslot => ?_⟩
  · rcases h.closing_inv ha.1 hclosing with hclosing | ⟨j, hj, hj'⟩
    · rcases hm.mem_table hk with hk' | ⟨hnone, _⟩
      · exact hu.apart k hk' hclosing
      · have hlook := hnext.handled.withdrawn.lookup_eq_some_iff.2 hk
        exact ha.2 hnone (by rw [hlook]; rfl) hclosing
    · rcases hm.mem_table hk with hk' | ⟨hnone, _⟩
      · rw [hwd.unique uri j k hj hk'] at hj'
        exact hj' hk
      · exact Store.lookup_eq_none_iff.1 hnone j hj
  · obtain ⟨es, hh⟩ := hm.history
    rw [hh, lastSent_append]
    cases hes : lastSent uri es with
    | some x =>
      obtain ⟨hx, hspeaks⟩ := mem_of_lastSent hes
      obtain ⟨j, r', rfl, _⟩ | ⟨n, rfl, hn⟩ := speaksOf_cases hspeaks
      · exact ⟨j, r', rfl⟩
      · -- the document is tracked, so that nothing of its name is taken back
        obtain ⟨hclosing, hs⟩ := h.closing_of_cleared ha.1 hh hx
        rw [hn] at hclosing
        rw [hs] at hk
        exact absurd hclosing (hu.apart k hk)
    | none =>
      have hb' : Event.began id r ∈ w.history := by
        rw [hh, List.mem_append] at hb
        refine hb.resolve_left fun hb => ?_
        have hsilent := lastSent_eq_none_iff.1 hes _ hb
        obtain ⟨hru, d, hd, hdu⟩ := hnext.own_name he
        have hw' := hnext.handled.sound (sound_fresh lifetime)
        obtain ⟨d', hd', hdu'⟩ := hw'.staged.table uri k hk
        rw [hslot, hd'] at hd
        cases hd
        simp [Event.speaksOf, Event.notice?, Report.notice, hru, ← hdu, hdu'] at hsilent
      have he' := h.handled.publishOrder.commit_eq hm hnext.handled.publishOrder.once hb' he
      rcases hm.mem_table hk with hk' | ⟨_, hnew⟩
      · exact hu.reported k id r e hk' hb' he' hslot
      · obtain ⟨d, hd, _⟩ := hw.staged.editions e (hw.staged.commits id e r he')
        have := Store.lt_of_dataOf hd
        omega

theorem Goes.unmixed {uri : Uri} (h : Goes (Patient uri) (fresh lifetime) w) : Unmixed uri w := by
  induction h with
  | refl => exact ⟨by simp [fresh], by simp [fresh]⟩
  | step h a ha ih => exact ih.step h.of_patient ha

/-- If no document is opened while one of its name is being closed, the client was told last what
the document reports. -/
theorem Goes.tracked_of_patient {uri : Uri} (h : Goes (Patient uri) (fresh lifetime) w)
    (hidle : w.tasks = []) {k : Nat} {d : Slot} {r : Report} (hlook : w.store.lookup uri = some k)
    (hd : w.store.dataOf k = some d) (hr : d.report = some r) :
    ∃ id, lastSent uri w.history = some (.began id r) := by
  obtain ⟨id, e, hb, he, hslot⟩ := h.of_patient.handled.backed.reports k d r hd hr
  obtain ⟨j, r', hlast⟩ :=
    h.unmixed.reported k id r e (Store.mem_table_of_lookup hlook) hb he hslot
  rcases h.of_patient.tracked_at_rest hidle hlook hd hr with hreport | ⟨c, _, _, hc⟩
  · exact hreport
  · rw [hlast] at hc
    cases hc

end Patient

end Workspace

end PromqlServer.Document
