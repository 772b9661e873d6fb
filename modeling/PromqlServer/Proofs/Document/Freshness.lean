import PromqlServer.Proofs.Document.Closings

/-!
No stale report: what `change`, `close` and `shutdown` of the document cache promise about the
`commit` of a version context. A report is published only while its version is the current one of
its document, after a `change` has returned none of the earlier contexts is published, and a `close`
returns when all publications of the slot that it removed are over (`no_stale_report`). A `shutdown`
waits for the slots that it drains itself, and not for one that a concurrent `close` has removed: a
`commit` of that slot which is past its check publishes after the `shutdown` has returned
(`publication_after_shutdown`).
-/

namespace PromqlServer.Document

namespace Workspace

/-- On the way to `w`, the call `id`, a `close` or a `shutdown`, has removed the slot `k` from the
table. -/
def RemovedSlot (origin w : Workspace) (id k : Nat) : Prop :=
  ∃ v c, Reaches origin v ∧ Reaches v w ∧ v.callAt id = some c ∧ k ∈ c.removes

/-- What holds of the publications of the slot `k` from the moment on in which the call `id` has
removed it. -/
structure StopsPublishing (id k : Nat) (w : Workspace) : Prop where
  stage : (∃ c, w.callAt id = some c ∧ k ∈ c.removes) ∨ Sealed w k
  /-- When the call has returned, no publication begins. -/
  later : ∀ reply i r e, Event.invoked i (.commit e r) ∈ w.history → e.slot = k →
    ¬ Precedes w.history (.returned id reply) (.began i r)
  /-- What began before the call returned is over when it returns. -/
  earlier : ∀ reply i r e, Event.invoked i (.commit e r) ∈ w.history → e.slot = k →
    Precedes w.history (.began i r) (.returned id reply) →
    Between w.history (.began i r) (.ended i) (.returned id reply)

theorem stopsPublishing_of_removes {w : Workspace} (hw : Sound w) {id k : Nat} {c : Call}
    (hcall : w.callAt id = some c) (hk : k ∈ c.removes) : StopsPublishing id k w where
  stage := Or.inl ⟨c, hcall, hk⟩
  later := fun reply _ _ _ _ _ hp => hw.tidy.not_returned hcall reply hp.mem_left
  earlier := fun reply _ _ _ _ _ hp => absurd hp.mem_right (hw.tidy.not_returned hcall reply)

/-- No publication of the document is past its check when the call returns. -/
theorem StopsPublishing.not_publishing {w w' : Workspace} {id k i : Nat}
    (h : StopsPublishing id k w) (hw : Sound w)
    {r : Report} {reply : Reply} (hnews : News w w' (.returned id reply)) :
    w.callAt i ≠ some (.publishing k r) := by
  intro hi
  cases hnews with
  | returned _ c s _ hc _ ht =>
    rcases h.stage with ⟨c', hc', hk⟩ | hseal
    · rw [hc] at hc'
      cases hc'
      obtain ⟨c'', hc'', _⟩ | ⟨hhead, _⟩ := ht.removes_next rfl hk
      · cases hc''
      · -- the publication would have the lock that the call has
        have hheadi := hw.locked.head i _ k hi rfl rfl
        rw [hhead] at hheadi
        cases hheadi
        rw [hc] at hi
        cases hi
        cases hk
    · exact absurd (hseal.2 i _ hi rfl) nofun

theorem StopsPublishing.step {w w' : Workspace} {id k : Nat} (h : StopsPublishing id k w)
    (hw : Sound w) (ha : PublishOrder w)
    (hwd : Withdrawn w) (hm : Moved w w') : StopsPublishing id k w' := by
  have honce := ha.once.step hm
  refine ⟨?_, fun reply i r e he hslot hp => ?_, fun reply i r e he hslot hp => ?_⟩
  · rcases h.stage with ⟨c, hc, hk⟩ | hseal
    · exact hwd.closes_step hw hm hc hk
    · exact Or.inr (hseal.step hw hm)
  · rcases hm.precedes rfl rfl (fun _ he => by cases he) hp with hp | ⟨hret, hnews⟩
    · exact h.later reply i r e (ha.commit_eq hm honce hp.mem_right he) hslot hp
    · have hseal : Sealed w k := h.stage.resolve_left fun ⟨c, hc, _⟩ =>
        hw.tidy.not_returned hc reply hret
      cases hnews with
      | began _ j _ hc =>
        obtain ⟨hj, _⟩ := hw.version_eq hm honce (Or.inl hc) he
        exact absurd (hseal.2 i _ hc (by rw [← hslot, hj]; rfl)) nofun
  · rcases hm.precedes rfl rfl (fun _ he => by cases he) hp with hp | ⟨hb, hnews⟩
    · obtain ⟨es, hh⟩ := hm.history
      rw [hh]
      exact (h.earlier reply i r e (ha.commit_eq hm honce hp.mem_left he) hslot hp).append es
    · rcases ha.begun i r hb with hend | ⟨j, hj⟩
      · cases hnews with
        | returned _ c s _ _ _ _ es hh =>
          rw [hh]
          exact (between_cons.2 (Or.inl ⟨rfl, hend.append _⟩)).append es
      · obtain ⟨hslot', _⟩ := hw.version_eq hm honce (Or.inr hj) he
        rw [← hslot', hslot] at hj
        exact absurd hj (h.not_publishing hw hnews)

theorem RemovedSlot.stopsPublishing {lifetime : Scope} {w : Workspace} {id k : Nat}
    (h : RemovedSlot (fresh lifetime) w id k) : StopsPublishing id k w := by
  obtain ⟨v, c, hv, hvw, hc, hk⟩ := h
  have hsound := hv.sound (sound_fresh lifetime)
  suffices hall : StopsPublishing id k w ∧ PublishOrder w ∧ Withdrawn w from hall.1
  refine hvw.keeps (P := fun u => StopsPublishing id k u ∧ PublishOrder u ∧ Withdrawn u) hsound
    ⟨stopsPublishing_of_removes hsound hc hk, hv.publishOrder, hv.withdrawn⟩ ?_
  rintro u u' hu - hm ⟨hstops, hpublish, hwithdrawn⟩
  exact ⟨hstops.step hu hpublish hwithdrawn hm, hpublish.step hu hm, hwithdrawn.step hu hm⟩

theorem RemovedSlot.step {origin w : Workspace} {id k : Nat} (h : RemovedSlot origin w id k)
    {a : Action} (ha : w.Admits a) : RemovedSlot origin (w.step a) id k := by
  obtain ⟨v, c, hv, hvw, hc, hk⟩ := h
  exact ⟨v, c, hv, hvw.step a ha, hc, hk⟩

/-- A `close` that returns a document has removed its slot before. -/
theorem Reaches.removedSlot_of_closed {lifetime : Scope} {w : Workspace}
    (hr : Reaches (fresh lifetime) w) {id : Nat} {closed : Closed}
    (hret : Event.returned id (.closed closed) ∈ w.history) :
    ∃ k d, RemovedSlot (fresh lifetime) w id k ∧ w.store.dataOf k = some d ∧
      d.uri = closed.uri := by
  induction hr with
  | refl => cases hret
  | @step w hr a ha ih =>
    obtain ⟨_, hm⟩ := (hr.sound (sound_fresh lifetime)).step ha
    obtain ⟨k, d, hremoved, hd, hu⟩ : ∃ k d, RemovedSlot (fresh lifetime) w id k ∧
        w.store.dataOf k = some d ∧ d.uri = closed.uri := by
      rcases hm.mem_news rfl hret with hret | hnews
      · exact ih hret
      · cases hnews with
        | returned _ c s _ hc _ ht =>
          obtain ⟨k, d, rfl, hd, rfl, _⟩ := ht.closed_inv
          have hremoved : RemovedSlot (fresh lifetime) w id k :=
            ⟨w, _, hr, .refl, hc, List.mem_singleton.2 rfl⟩
          exact ⟨k, d.data, hremoved, Store.dataOf_eq hd, rfl⟩
    obtain ⟨d', hd', hu'⟩ := hm.dataOf_uri hd
    exact ⟨k, d', hremoved.step ha, hd', hu'.trans hu⟩

/-- A publication that begins when a `shutdown` has returned is one of a slot that another call had
removed before it was drained. -/
theorem Reaches.removedSlot_of_drained {lifetime : Scope} {w : Workspace}
    (hr : Reaches (fresh lifetime) w) {id i : Nat} {ds : List Closed} {r : Report} {e : Edition}
    (he : Event.invoked i (.commit e r) ∈ w.history)
    (hp : Precedes w.history (.returned id (.drained ds)) (.began i r)) :
    ∃ j, j ≠ id ∧ RemovedSlot (fresh lifetime) w j e.slot := by
  suffices hsome : ∃ j, RemovedSlot (fresh lifetime) w j e.slot by
    obtain ⟨j, hremoved⟩ := hsome
    refine ⟨j, ?_, hremoved⟩
    rintro rfl
    exact hremoved.stopsPublishing.later _ i r e he rfl hp
  induction hr with
  | refl => cases he
  | @step w hr a ha ih =>
    have hw := hr.sound (sound_fresh lifetime)
    obtain ⟨_, hm⟩ := hw.step ha
    have honce := hr.publishOrder.once.step hm
    rcases hm.precedes rfl rfl (fun _ he => by cases he) hp with hp | ⟨hret, hnews⟩
    · obtain ⟨j, hremoved⟩ := ih (hr.publishOrder.commit_eq hm honce hp.mem_right he) hp
      exact ⟨j, hremoved.step ha⟩
    · cases hnews with
      | began _ k _ hc =>
        obtain ⟨hk, d, hd, _⟩ := hw.version_eq hm honce (Or.inl hc) he
        have hempty := hr.withdrawn.drained id ds hret
        obtain ⟨uri, hmem⟩ | ⟨j, c, hj, hmem⟩ | hseal :=
          hr.withdrawn.kept k (Store.lt_of_dataOf hd)
        · rw [hempty.2] at hmem
          cases hmem
        · exact ⟨j, w, c, hr, Reaches.refl.step a ha, hj, by rw [hk]; exact hmem⟩
        · exact absurd (hseal.2 i _ hc rfl) nofun

/-- No report is stale, in any run, but for the slots that a `shutdown` does not get to drain. -/
theorem no_stale_report {lifetime : Scope} {w : Workspace} (hr : Reaches (fresh lifetime) w) :
    -- after a `change` has returned, nothing begins for a context that was handed out before
    (∀ i j id r e e', Event.invoked id (.commit e r) ∈ w.history → e.slot = e'.slot →
      ¬ Between w.history (.returned i (.opened e)) (.returned j (.opened e')) (.began id r)) ∧
    -- a `close` that has returned had removed a slot; when the `close` or the `shutdown` that
    -- removed a slot has returned, nothing begins for it any more, and what had begun is over
    (∀ id closed, Event.returned id (.closed closed) ∈ w.history →
      ∃ k d, RemovedSlot (fresh lifetime) w id k ∧ w.store.slots[k]? = some d ∧
        d.uri = closed.uri) ∧
    (∀ id reply i r e, Event.invoked i (.commit e r) ∈ w.history →
      RemovedSlot (fresh lifetime) w id e.slot →
      ¬ Precedes w.history (.returned id reply) (.began i r) ∧
      (Precedes w.history (.began i r) (.returned id reply) →
        Between w.history (.began i r) (.ended i) (.returned id reply))) ∧
    -- what begins after a `shutdown` has returned is for a slot that another call had removed
    (∀ id ds i r e, Event.invoked i (.commit e r) ∈ w.history →
      Precedes w.history (.returned id (.drained ds)) (.began i r) →
      ∃ j, j ≠ id ∧ RemovedSlot (fresh lifetime) w j e.slot) ∧
    -- publications of one document do not overlap, and their versions do not go down
    (∀ i j ri rj ei ej, Precedes w.history (.began i ri) (.began j rj) →
      Event.invoked i (.commit ei ri) ∈ w.history → Event.invoked j (.commit ej rj) ∈ w.history →
      ei.slot = ej.slot →
      Between w.history (.began i ri) (.ended i) (.began j rj) ∧ ei.version ≤ ej.version) ∧
    -- and each begins while its version is the current one
    (∀ a es id r e, w.Admits a → (w.step a).history = es ++ w.history → Event.began id r ∈ es →
      Event.invoked id (.commit e r) ∈ (w.step a).history →
      ∃ d, w.store.slots[e.slot]? = some d ∧ d.version = e.version) := by
  have hw := hr.sound (sound_fresh lifetime)
  refine ⟨hr.publishOrder.timely, fun id closed hret => ?_,
    fun id reply i r e he hremoved => ?_, fun id ds i r e he hp => hr.removedSlot_of_drained he hp,
    hr.publishOrder.apart, fun a es id r e ha hh hb he => ?_⟩
  · obtain ⟨k, d, hremoved, hd, hu⟩ := hr.removedSlot_of_closed hret
    obtain ⟨d', hd', rfl⟩ := Store.slot_of_dataOf hd
    exact ⟨k, d', hremoved, hd', hu⟩
  · have hstops := hremoved.stopsPublishing
    exact ⟨hstops.later reply i r e he rfl, hstops.earlier reply i r e he rfl⟩
  · obtain ⟨_, hm⟩ := hw.step ha
    obtain ⟨es', hh', hnews, _⟩ := hm.news
    rw [hh'] at hh
    rw [List.append_cancel_right hh.symm] at hb
    cases hnews _ hb rfl with
    | began _ k _ hc =>
      obtain ⟨rfl, d, hd, hv⟩ := hw.version_eq hm (hr.publishOrder.once.step hm) (Or.inl hc) he
      obtain ⟨d', hd', rfl⟩ := Store.slot_of_dataOf hd
      exact ⟨d', hd', hv⟩

/-! ## A document that is changed and closed while its report is published -/

def rulesEdition : Edition := ⟨⟨"file:///rules"⟩, 1, "up", 0, [0, 0]⟩

def rulesReport : Report := ⟨⟨"file:///rules"⟩, 1, []⟩

/-- The change comes while the report is past its check, and the close has taken the document out
of the table when the report is sent. -/
def rulesOpened : List Action :=
  [.invoke .answer (.track ⟨"file:///rules"⟩ "up" 1), .advance 0,
    .invoke .answer (.commit rulesEdition rulesReport), .advance 1, .advance 1,
    .invoke .answer (.change ⟨"file:///rules"⟩ "down" 2), .advance 2, .advance 2,
    .invoke .answer (.close ⟨"file:///rules"⟩), .advance 3, .advance 3]

def rulesClosed : List Action :=
  [.advance 3, .advance 1, .advance 1, .advance 2, .advance 3]

/-- The close returns after the report was sent, and the change fails. -/
theorem no_stale_report_rules :
    Between (((fresh []).run rulesOpened).run rulesClosed).history (.began 1 rulesReport) (.ended 1)
      (.returned 3 (.closed ⟨⟨"file:///rules"⟩, 1, true⟩)) := by
  have hopened : Reaches (fresh []) ((fresh []).run rulesOpened) := .run (by decide)
  have hclosed : Reaches ((fresh []).run rulesOpened)
      (((fresh []).run rulesOpened).run rulesClosed) := .run (by decide)
  have hall := no_stale_report (hopened.trans hclosed)
  refine (hall.2.2.1 3 (.closed ⟨⟨"file:///rules"⟩, 1, true⟩) 1 rulesReport rulesEdition (by decide)
    ⟨_, .arrive 0 .close, hopened, hclosed, by decide, by decide⟩).2 ?_
  unfold Precedes
  decide

/-- A `commit` is past its check when a `close` removes the slot and waits for its lock, and then a
`shutdown` finds nothing to drain. -/
def rulesMissed : List Action :=
  [.invoke .answer (.track ⟨"file:///rules"⟩ "up" 1), .advance 0,
    .invoke .answer (.commit rulesEdition rulesReport), .advance 1, .advance 1,
    .invoke .answer (.close ⟨"file:///rules"⟩), .advance 2, .advance 2, .advance 2,
    .invoke .answer .shutdown, .advance 3, .advance 3, .advance 3]

/-- The `commit` of a context that was handed out before the `shutdown` was made begins to publish
after the `shutdown` has returned. -/
theorem publication_after_shutdown :
    ∃ w, Reaches (fresh []) w ∧
      Event.invoked 1 (.commit rulesEdition rulesReport) ∈ w.history ∧
      Precedes w.history (.returned 0 (.opened rulesEdition)) (.invoked 3 .shutdown) ∧
      Between w.history (.invoked 3 .shutdown) (.returned 3 (.drained []))
        (.began 1 rulesReport) := by
  refine ⟨(fresh []).run (rulesMissed ++ [.advance 1]), .run (by decide), by decide, ?_, ?_⟩
  · unfold Precedes
    decide
  · unfold Between
    decide

end Workspace

end PromqlServer.Document
