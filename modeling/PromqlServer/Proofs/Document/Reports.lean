import Mathlib.Data.List.Perm.Subperm
import PromqlServer.Proofs.Document.Tasks

/-!
Reports belong to the texts that they are shown for. An analysis of the publisher's `run` that is
cancelled on its way finds nothing, so that whatever is published is all there is to say about the
text of its version context; a publish begins once at most for each scheduled context, and the
report that `document` shows is the one for its text (`reports_match`).
-/

namespace PromqlServer.Query

/-- A scan that comes to its end has met no cancellation. -/
theorem scanLines_of_ok {cancelled : Nat → Bool} {line : Nat} {ls : List (List Char)} {s s' : Scan}
    (h : scanLines cancelled line ls s = .ok s') :
    scanLines (fun _ => false) line ls s = .ok s' := by
  induction ls generalizing line s with
  | nil => exact h
  | cons l ls ih =>
    rw [scanLines] at h
    split at h
    · cases h
    · exact ih h

/-- What an analysis finds is all there is, whatever the polls answer. -/
theorem diagnostics_of_ok {cancelled : Nat → Bool} {text : String} {ds : List Diagnostic}
    (h : diagnostics cancelled text = .ok ds) : ds = faults text := by
  have hall := diagnostics_eq_ok text
  rw [diagnostics, findings] at h hall
  cases hscan : scanLines cancelled 0 (Text.lines text.toList) Scan.empty with
  | error e =>
    rw [hscan] at h
    cases h
  | ok s =>
    rw [hscan] at h
    rw [scanLines_of_ok hscan] at hall
    exact Except.ok.inj (h.symm.trans hall)

end PromqlServer.Query

namespace PromqlServer.Document

open PromqlServer.Query

/-- What the lexical check says about a text, if the polls for cancellation answer `polls`. -/
theorem Provider.lexical_found {polls : Nat → Bool} {text : String} {ds : List Diagnostic}
    (h : Provider.lexical.analyse polls text = .found ds) : ds = faults text := by
  have hanalyse : Provider.lexical.analyse polls text
      = .ofExcept (Query.diagnostics polls text) := rfl
  rw [hanalyse] at h
  cases hd : Query.diagnostics polls text with
  | error e =>
    rw [hd] at h
    cases h
  | ok ds' =>
    rw [hd] at h
    cases h
    exact diagnostics_of_ok hd

namespace Workspace

/-! ## Where reports come from -/

/-- Commits are made by publications, each for its edition, with diagnostics that are `good` for
the text. -/
structure Founded (good : String → List Diagnostic → Prop) (w : Workspace) : Prop where
  scheduled : ∀ id e stage, (id, Task.publication e stage) ∈ w.tasks →
    Event.scheduled id e ∈ w.history
  commits : ∀ id e r, Event.invoked id (.commit e r) ∈ w.history →
    Event.scheduled id e ∈ w.history ∧ ∃ ds, good e.content ds ∧ r = ⟨e.uri, e.version, ds⟩

section Founded

variable {good : String → List Diagnostic → Prop} {w w' : Workspace} {a : Action}

theorem founded_fresh (lifetime : Scope) : Founded good (fresh lifetime) where
  scheduled := by simp [fresh]
  commits := by simp [fresh]

theorem Founded.step (h : Founded good w) (hs : Stepped w a w')
    (hcall : ∀ p q, a = .invoke p q → q.call.purpose? ≠ none)
    (hgood : ∀ id ds e, a = .analysed id (.found ds) →
      (id, Task.publication e .analysing) ∈ w.tasks → good e.content ds) : Founded good w' := by
  obtain ⟨taskStep, traded⟩ := hs
  have hold : ∀ {x}, x ∈ w.history → x ∈ w'.history := by
    intro x hx
    rw [traded.history]
    exact List.mem_append_right _ hx
  refine ⟨fun id e stage hm => ?_, fun id e r hm => ?_⟩
  · rcases traded.mem hm with hm | hm
    · rcases taskStep.publication hm with hm | ⟨stage', hm⟩
      · rw [traded.history]
        exact List.mem_append_left _ hm
      · exact hold (h.scheduled id e stage' (traded.mem_before hm))
    · exact hold (h.scheduled id e stage hm)
  · rw [traded.history, List.mem_append] at hm
    rcases hm with hm | hm
    · rcases taskStep.request hm with ⟨_, p, rfl⟩ | ⟨e', ds, rfl, hbefore, heq⟩
      · exact absurd rfl (hcall p _ rfl)
      · cases heq
        have hmem := traded.mem_before hbefore
        exact ⟨hold (h.scheduled id e _ hmem), ds, hgood id ds e rfl hmem, rfl⟩
    · obtain ⟨hscheduled, hds⟩ := h.commits id e r hm
      exact ⟨hold hscheduled, hds⟩

end Founded

end Workspace

/-! ## What documents show -/

/-- The report is for this name, this version and this text. -/
def Report.IsFor (good : String → List Diagnostic → Prop) (r : Report) (uri : Uri) (version : Int)
    (content : String) : Prop :=
  r.uri = uri ∧ r.version = version ∧ good content r.diagnostics

/-- A snapshot is taken of a document under its lock. -/
theorem Turned.snapshot_inv {s s' : Store} {id : Nat} {c : Call} {shown : Snapshot}
    (h : Turned s id c (.done s' (.snapshot shown))) :
    ∃ (k : Nat) (d : Slot), s.slots[k]? = some d ∧
      shown = ⟨d.uri, d.version, d.content, d.report⟩ := by
  cases h with
  | answered _ _ hr => cases hr
  | @left k d work _ hd hcheck =>
    cases work with
    | snapshot =>
      simp only [Store.check] at hcheck
      split at hcheck
      · cases hcheck
      · cases hcheck
        exact ⟨k, d, (Store.held_eq_some_iff.1 hd).1, rfl⟩
    | close => cases hcheck
    | version => simp only [Store.check] at hcheck; split at hcheck <;> cases hcheck
    | commit => simp only [Store.check] at hcheck; split at hcheck <;> cases hcheck
    | change =>
      simp only [Store.check] at hcheck
      split at hcheck
      · cases hcheck
      · split at hcheck <;> cases hcheck

namespace Workspace

/-- The report of a document, and one in a snapshot, is for the text that it is shown with. -/
structure Matched (good : String → List Diagnostic → Prop) (w : Workspace) : Prop where
  slots : ∀ k d r, w.store.dataOf k = some d → d.report = some r →
    r.IsFor good d.uri d.version d.content
  shown : ∀ id shown r, Event.returned id (.snapshot shown) ∈ w.history → shown.report = some r →
    r.IsFor good shown.uri shown.version shown.content

section Matched

variable {good : String → List Diagnostic → Prop} {w w' : Workspace}

theorem matched_fresh (lifetime : Scope) : Matched good (fresh lifetime) where
  slots := by simp [fresh, Store.dataOf]
  shown := by simp [fresh]

/-- What a publication records is for the text that the document has: while the publication was
under way the document was locked. -/
theorem Founded.recorded (h : Founded good w) (hw : Sound w) {id k : Nat} {r : Report} {d : Slot}
    (hc : w.callAt id = some (.publishing k r)) (hd : w.store.dataOf k = some d) :
    r.IsFor good d.uri d.version d.content := by
  obtain ⟨e, d1, hinvoked, rfl, hd1, hversion⟩ := hw.dated.publishes id k r (Or.inr hc)
  rw [hd] at hd1
  cases hd1
  have hout := hw.staged.commits id e r hinvoked
  obtain ⟨_, ds, hgood, rfl⟩ := h.commits id e r hinvoked
  obtain ⟨d2, hd2, huri⟩ := hw.staged.editions e hout
  obtain ⟨d3, n, hd3, _, hrev⟩ := hw.dated.edition e hout
  rw [hd] at hd2 hd3
  cases hd2
  cases hd3
  rcases hrev with ⟨_, hlt⟩ | ⟨_, _, hcontent⟩
  · omega
  · exact ⟨huri.symm, hversion.symm, hcontent ▸ hgood⟩

theorem Matched.slots_step (h : Matched good w) (hf : Founded good w) (hw : Sound w)
    (hm : Moved w w') {k : Nat} {d : Slot} {r : Report} (hd : w'.store.dataOf k = some d)
    (hr : d.report = some r) : r.IsFor good d.uri d.version d.content := by
  cases hm with
  | aside hs => exact h.slots k d r (by rw [← hs]; exact hd) hr
  | invoked _ _ _ _ _ _ hs => exact h.slots k d r (by rw [← hs]; exact hd) hr
  | cancelled _ _ hs => exact h.slots k d r (by rw [hs] at hd; exact hd) hr
  | turned id c t hcall ht hs =>
    cases ht.dataStep hs with
    | same hsame => exact h.slots k d r (by rw [← hsame]; exact hd) hr
    | tracked u content version _ _ _ hs' =>
      rw [hs', Store.dataOf_withSlot] at hd
      split at hd
      · cases hd
        cases hr
      · exact h.slots k d r hd hr
    | replaced j d0 content version _ hd0 hs' =>
      rw [hs', Store.dataOf_replace hd0] at hd
      split at hd
      · cases hd
        cases hr
      · exact h.slots k d r hd hr
    | recorded j report hc hs' =>
      subst hc
      rw [hs', Store.dataOf_record] at hd
      split at hd
      · rename_i hk
        obtain ⟨d0, hd0, rfl⟩ := Option.map_eq_some_iff.1 hd
        cases hr
        have hfor : r.IsFor good d0.uri d0.version d0.content :=
          hf.recorded hw hcall (by rw [← hk]; exact hd0)
        exact hfor
      · exact h.slots k d r hd hr

theorem Matched.step (h : Matched good w) (hf : Founded good w) (hw : Sound w)
    (hm : Moved w w') : Matched good w' := by
  refine ⟨fun k d r hd hr => h.slots_step hf hw hm hd hr, fun id shown r hret hr => ?_⟩
  rcases hm.mem_news rfl hret with hret | hnews
  · exact h.shown id shown r hret hr
  · cases hnews with
    | returned _ c s _ _ _ ht =>
      obtain ⟨k, d, hd, rfl⟩ := ht.snapshot_inv
      exact h.slots k d.data r (Store.dataOf_eq hd) hr

end Matched

/-! ## Once for each publication -/

end Workspace

/-- The publication that begins. -/
def Event.begun? : Event → Option Nat
  | .began id _ => some id
  | _ => none

/-- The publication that is scheduled for the edition. -/
def Event.scheduledFor? (e : Edition) : Event → Option Nat
  | .scheduled id e' => if e' = e then some id else none
  | _ => none

theorem Event.begun?_eq_some_iff {x : Event} {id : Nat} :
    x.begun? = some id ↔ ∃ r, x = .began id r := by
  cases x <;> simp [Event.begun?]

theorem Event.scheduledFor?_eq_some_iff {x : Event} {e : Edition} {id : Nat} :
    x.scheduledFor? e = some id ↔ x = .scheduled id e := by
  cases x <;> simp [Event.scheduledFor?, and_comm]

namespace Workspace

/-- A publication that ends has returned. -/
def Ended (w : Workspace) : Prop :=
  ∀ id, Event.ended id ∈ w.history → ∃ reply, Event.returned id reply ∈ w.history

theorem Ended.step {w w' : Workspace} (h : Ended w) (hm : Moved w w') : Ended w' := by
  intro id hend
  have hold : Event.ended id ∈ w.history → ∃ reply, Event.returned id reply ∈ w'.history := by
    intro hend
    obtain ⟨reply, hret⟩ := h id hend
    exact ⟨reply, hm.mem_history hret⟩
  rcases hm.mem_news rfl hend with hend | hnews
  · exact hold hend
  · cases hnews with
    | ended _ k r hc =>
      -- the end of a publication and its reply are one turn
      cases hm with
      | aside _ _ es hes hh =>
        rw [hh, List.mem_append] at hend
        exact hold (hend.resolve_left fun he => by cases hes _ he)
      | invoked _ _ _ _ _ _ _ _ hh =>
        rw [hh, List.mem_cons] at hend
        exact hold (hend.resolve_left nofun)
      | cancelled _ _ _ _ hh =>
        rw [hh, List.mem_cons] at hend
        exact hold (hend.resolve_left nofun)
      | turned i c t hcall ht hs _ es hes hh =>
        rw [hh]
        rw [hh, List.mem_append, List.mem_append, List.mem_append] at hend
        rcases hend with he | he | he | he
        · cases hes _ he
        · cases t <;> simp [Turn.replies] at he
        · obtain ⟨_, _, _, heq⟩ | ⟨_, _, rfl, heq⟩ := Call.mem_notes he
          · cases heq
          · cases heq
            cases ht with
            | blocked => cases hs
            | answered hbrief => cases hbrief
            | ended => exact ⟨.committed, by simp [Turn.replies]⟩
        · obtain ⟨reply, hret⟩ := h id he
          exact ⟨reply, by simp [hret]⟩

/-- Each publication begins once at most. -/
def BeginsOnce (w : Workspace) : Prop := (w.history.filterMap Event.begun?).Nodup

theorem filterMap_begun?_aside {es : List Event} (hes : ∀ e ∈ es, e.isAside = true) :
    es.filterMap Event.begun? = [] := by
  rw [List.filterMap_eq_nil_iff]
  intro x hx
  have haside := hes x hx
  cases x <;> first | rfl | cases haside

theorem BeginsOnce.step {w w' : Workspace} (h : BeginsOnce w) (hw : Sound w) (ha : PublishOrder w)
    (hended : Ended w) (hm : Moved w w') : BeginsOnce w' := by
  cases hm with
  | aside _ _ es hes hh =>
    rw [BeginsOnce, hh, List.filterMap_append, filterMap_begun?_aside hes]
    exact h
  | invoked _ _ _ _ _ _ _ _ hh => rw [BeginsOnce, hh]; exact h
  | cancelled _ _ _ _ hh => rw [BeginsOnce, hh]; exact h
  | turned id c t hcall ht hs _ es hes hh =>
    have hreplies : (t.replies id).filterMap Event.begun? = [] := by cases t <;> rfl
    rw [BeginsOnce, hh, List.filterMap_append, filterMap_begun?_aside hes, List.nil_append,
      List.filterMap_append, hreplies, List.nil_append, List.filterMap_append]
    -- a call that comes to its publication has not published before
    have hnew : ∀ k r, c = .publish k r → id ∉ w.history.filterMap Event.begun? := by
      rintro k r rfl hmem
      obtain ⟨x, hx, hid⟩ := List.mem_filterMap.1 hmem
      obtain ⟨r', rfl⟩ := Event.begun?_eq_some_iff.1 hid
      rcases ha.begun id r' hx with hend | ⟨k', hc'⟩
      · obtain ⟨reply, hret⟩ := hended id hend.mem_right
        exact hw.tidy.not_returned hcall reply hret
      · rw [hcall] at hc'
        cases hc'
    cases c with
    | publish k r => exact List.nodup_cons.2 ⟨hnew k r rfl, h⟩
    | _ => exact h

theorem Reaches.beginsOnce {lifetime : Scope} {w : Workspace} (hr : Reaches (fresh lifetime) w) :
    BeginsOnce w := by
  suffices hall : BeginsOnce w ∧ PublishOrder w ∧ Ended w from hall.1
  refine hr.keeps (P := fun u => BeginsOnce u ∧ PublishOrder u ∧ Ended u) (sound_fresh lifetime)
    ⟨List.nodup_nil, publishOrder_fresh lifetime, by simp [Ended, fresh]⟩ ?_
  rintro u u' hu - hm ⟨honce, hpublish, hended⟩
  exact ⟨honce.step hu hpublish hended hm, hpublish.step hu hm, hended.step hm⟩

/-! ## Publications that are given up -/

/-- No task has the number any more, and none had it at a call. -/
structure Gone (id : Nat) (w : Workspace) : Prop where
  used : id < w.started
  task : ∀ t, (id, t) ∉ w.tasks
  request : ∀ q, Event.invoked id q ∉ w.history

theorem Gone.step {id : Nat} {w w' : Workspace} {a : Action} (h : Gone id w)
    (hs : Stepped w a w') : Gone id w' := by
  obtain ⟨taskStep, traded⟩ := hs
  refine ⟨Nat.lt_of_lt_of_le h.used traded.started, fun t hm => ?_, fun q hm => ?_⟩
  · rcases traded.mem hm with hm | hm
    · rcases taskStep.number hm with rfl | ⟨t', hm⟩
      · exact absurd h.used (Nat.lt_irrefl _)
      · exact h.task t' (traded.mem_before hm)
    · exact h.task t hm
  · rw [traded.history, List.mem_append] at hm
    rcases hm with hm | hm
    · rcases taskStep.request hm with ⟨rfl, _⟩ | ⟨e, ds, _, hm, _⟩
      · exact absurd h.used (Nat.lt_irrefl _)
      · exact h.task _ (traded.mem_before hm)
    · exact h.request q hm

/-- What never came to its commit is never published. -/
theorem Gone.silent {lifetime : Scope} {id : Nat} {w w' : Workspace} (h : Gone id w)
    (hr : Reaches (fresh lifetime) w) (hr' : Reaches w w') (r : Report) :
    Event.began id r ∉ w'.history := by
  have hgone : Gone id w' := by
    induction hr' with
    | refl => exact h
    | step hr' a _ ih => exact ih.step ((hr.trans hr').discerned.stepped a)
  intro hb
  obtain ⟨e, he⟩ := (hr.trans hr').publishOrder.origin id r hb
  exact hgone.request _ he

/-- A publication that is given up leaves the documents and the client as they are. -/
theorem Reaches.given_up {lifetime : Scope} {w : Workspace} (hr : Reaches (fresh lifetime) w)
    {id : Nat} {e : Edition} {stage : Stage} (hm : (id, .publication e stage) ∈ w.tasks)
    (hstage : stage = .ready ∨ stage = .analysing) :
    (w.drop id).store = w.store ∧ (w.drop id).outbox = w.outbox ∧ Gone id (w.drop id) := by
  have htidy := (hr.sound (sound_fresh lifetime)).tidy
  have htask := hr.discerned.task?_iff.2 hm
  have hearly : (Task.publication e stage).isEarly = true := by
    rcases hstage with rfl | rfl <;> rfl
  refine ⟨rfl, rfl, htidy.numbered id _ htask, fun t hm' => ?_, fun q hq => ?_⟩
  · simp [drop, finish, emit] at hm'
  · exact htidy.early id _ htask hearly q (by simpa [drop, finish, emit] using hq)

/-! ## The lexical check -/

/-- Steps of a workspace whose publications do the lexical check of the texts of their editions.
Commits are left to publications, and each poll for cancellation may answer what it likes. -/
def Checks (w : Workspace) (a : Action) : Prop :=
  w.Admits a ∧ (∀ p q, a = .invoke p q → q.call.purpose? ≠ none) ∧
    ∀ id analysis e, a = .analysed id analysis → (id, Task.publication e .analysing) ∈ w.tasks →
      ∃ polls, analysis = Provider.lexical.analyse polls e.content

section Checked

variable {lifetime : Scope} {w : Workspace}

theorem Goes.checked (h : Goes Checks (fresh lifetime) w) : Reaches (fresh lifetime) w :=
  h.reaches fun _ _ ha => ha.1

theorem Goes.checked_allSent (h : Goes Checks (fresh lifetime) w) : AllSent w := by
  suffices hall : Suited (fun _ _ => True) w ∧ AllSent w from hall.2
  induction h with
  | refl => exact ⟨suited_fresh lifetime, rfl⟩
  | step h a ha ih =>
    have hs := h.checked.discerned.stepped a
    refine ⟨ih.1.step hs fun p q he => ?_, ih.2.step ih.1 hs⟩
    obtain ⟨p', hp'⟩ := Option.ne_none_iff_exists'.1 (ha.2.1 p q he)
    exact ⟨p', hp', trivial⟩

/-- What is good to say about a text: all that the lexical check finds. -/
def Thorough (content : String) (ds : List Diagnostic) : Prop :=
  Query.diagnostics (fun _ => false) content = .ok ds

theorem Checks.thorough {a : Action} (ha : w.Checks a) (id : Nat) (ds : List Diagnostic)
    (e : Edition) (he : a = .analysed id (.found ds))
    (hm : (id, Task.publication e .analysing) ∈ w.tasks) : Thorough e.content ds := by
  obtain ⟨polls, hfound⟩ := ha.2.2 id _ e he hm
  rw [Thorough, diagnostics_eq_ok, Provider.lexical_found hfound.symm]

theorem Goes.founded (h : Goes Checks (fresh lifetime) w) : Founded Thorough w := by
  induction h with
  | refl => exact founded_fresh lifetime
  | step h a ha ih => exact ih.step (h.checked.discerned.stepped a) ha.2.1 ha.thorough

theorem Goes.matched (h : Goes Checks (fresh lifetime) w) : Matched Thorough w := by
  induction h with
  | refl => exact matched_fresh lifetime
  | step h a ha ih =>
    have hw := h.checked.sound (sound_fresh lifetime)
    exact ih.step h.founded hw (hw.step ha.1).2

/-- What is published is for an edition that was handed out, and is all there is to say about
its text. -/
theorem Goes.published (h : Goes Checks (fresh lifetime) w) {id : Nat} {r : Report}
    (hb : Event.began id r ∈ w.history) : ∃ e, Event.scheduled id e ∈ w.history ∧ w.HandedOut e ∧
      r.IsFor Thorough e.uri e.version e.content := by
  obtain ⟨e, he⟩ := h.checked.publishOrder.origin id r hb
  obtain ⟨hscheduled, ds, hds, rfl⟩ := h.founded.commits id e r he
  have hout := (h.checked.sound (sound_fresh lifetime)).staged.commits id e _ he
  exact ⟨e, hscheduled, hout, rfl, rfl, hds⟩

/-- An edition is published no more often than it was scheduled. -/
theorem Goes.publications_le (h : Goes Checks (fresh lifetime) w) (e : Edition) :
    ((w.history.filterMap Event.begun?).filter fun id => Event.scheduled id e ∈ w.history).length
      ≤ (w.history.filterMap (Event.scheduledFor? e)).length := by
  refine (List.Nodup.subperm (h.checked.beginsOnce.filter _) fun id hid => ?_).length_le
  have hscheduled : Event.scheduled id e ∈ w.history := by simpa using (List.mem_filter.1 hid).2
  exact List.mem_filterMap.2 ⟨_, hscheduled, Event.scheduledFor?_eq_some_iff.2 rfl⟩

end Checked

/-- Reports belong to the texts that they are shown for. -/
theorem reports_match (lifetime : Scope) :
    (∀ w, Goes Checks (fresh lifetime) w →
      -- all that the client gets are reports that began, and clearings
      w.outbox = sentNotices w.history ∧
      -- a report is for the edition whose publication it is of, and for the whole of its text
      (∀ id r, Event.began id r ∈ w.history → ∃ e, Event.scheduled id e ∈ w.history ∧
        w.HandedOut e ∧ r.uri = e.uri ∧ r.version = e.version ∧
          Query.diagnostics (fun _ => false) e.content = .ok r.diagnostics) ∧
      -- once at most
      (w.history.filterMap Event.begun?).Nodup ∧
      (∀ e, ((w.history.filterMap Event.begun?).filter
        fun id => Event.scheduled id e ∈ w.history).length
          ≤ (w.history.filterMap (Event.scheduledFor? e)).length) ∧
      -- and what a document shows is for the text that it shows
      ∀ id shown r, Event.returned id (.snapshot shown) ∈ w.history → shown.report = some r →
        r.uri = shown.uri ∧ r.version = shown.version ∧
          Query.diagnostics (fun _ => false) shown.content = .ok r.diagnostics) ∧
    -- whatever the provider is, an analysis that finds nothing or comes too late is the end
    ∀ w, Reaches (fresh lifetime) w → ∀ id e a,
      ((id, .publication e .analysing) ∈ w.tasks ∧ ∃ analysis, a = .analysed id analysis ∧
        ∀ ds, analysis ≠ .found ds) ∨
      (w.store.isCancelled e.scope = true ∧ a = .advance id ∧
        ((id, .publication e .ready) ∈ w.tasks ∨ (id, .publication e .analysing) ∈ w.tasks)) →
      (w.step a).store = w.store ∧ (w.step a).outbox = w.outbox ∧
        ∀ w', Reaches (w.step a) w' → ∀ r, Event.began id r ∉ w'.history := by
  refine ⟨fun w h => ⟨h.checked_allSent, fun id r hb => ?_, h.checked.beginsOnce,
    h.publications_le, fun id shown r hret hr => h.matched.shown id shown r hret hr⟩, ?_⟩
  · obtain ⟨e, hscheduled, hout, hfor⟩ := h.published hb
    exact ⟨e, hscheduled, hout, hfor⟩
  · intro w hr id e a ha
    -- in all these cases the publication is dropped
    obtain ⟨stage, hm, hstage, hstep, hadmits⟩ : ∃ stage, (id, .publication e stage) ∈ w.tasks ∧
        (stage = .ready ∨ stage = .analysing) ∧ w.step a = w.drop id ∧ w.Admits a := by
      rcases ha with ⟨hm, analysis, rfl, hnone⟩ | ⟨hcancelled, rfl, hm | hm⟩
      · refine ⟨_, hm, Or.inr rfl, ?_, trivial⟩
        simp only [step, analysed, hr.discerned.task?_iff.2 hm]
      · refine ⟨_, hm, Or.inl rfl, ?_, trivial⟩
        simp only [step, advance, hr.discerned.task?_iff.2 hm, hcancelled, if_true]
      · refine ⟨_, hm, Or.inr rfl, ?_, trivial⟩
        simp only [step, advance, hr.discerned.task?_iff.2 hm, hcancelled, if_true]
    obtain ⟨hstore, houtbox, hgone⟩ := hr.given_up hm hstage
    rw [← hstep] at hstore houtbox hgone
    exact ⟨hstore, houtbox, fun w' hr' r => hgone.silent (hr.step a hadmits) hr' r⟩

/-- A document with an open bracket is opened and checked, and is looked at when its report is
out. -/
def bracketOpened : List Action :=
  [.invoke .analyse (.track ⟨"file:///rules"⟩ "up(" 1), .advance 0, .advance 1]

def bracketShown : List Action :=
  [.advance 1, .advance 1, .advance 1, .advance 1,
    .invoke .answer (.snapshot ⟨"file:///rules"⟩), .advance 2, .advance 2, .advance 2]

def bracketChecked : Workspace :=
  (((fresh []).run bracketOpened).step
    (.analysed 1 (Provider.lexical.analyse (fun _ => false) "up("))).run bracketShown

def bracketReport : Report :=
  ⟨⟨"file:///rules"⟩, 1, [⟨⟨⟨0, 2⟩, ⟨0, 3⟩⟩, some .error, some "promql", "unclosed '('"⟩]⟩

/-- The report that the document shows is the one for its text. -/
theorem reports_match_bracket :
    Event.returned 2 (.snapshot ⟨⟨"file:///rules"⟩, 1, "up(", some bracketReport⟩)
      ∈ bracketChecked.history ∧
    Query.diagnostics (fun _ => false) "up(" = .ok bracketReport.diagnostics := by
  have hadvance : ∀ (w : Workspace) (id : Nat), w.Checks (.advance id) :=
    fun _ _ => ⟨trivial, nofun, nofun⟩
  have hopened : ∀ w, AllowsAll Checks w bracketOpened := fun w =>
    ⟨⟨trivial, by rintro _ _ ⟨⟩; nofun, nofun⟩, hadvance .., hadvance .., trivial⟩
  have hshown : ∀ w, AllowsAll Checks w bracketShown := fun w =>
    ⟨hadvance .., hadvance .., hadvance .., hadvance ..,
      ⟨trivial, by rintro _ _ ⟨⟩; nofun, nofun⟩, hadvance .., hadvance .., hadvance .., trivial⟩
  have htasks : ((fresh []).run bracketOpened).tasks
      = [(1, .publication ⟨⟨"file:///rules"⟩, 1, "up(", 0, [0, 0]⟩ .analysing)] := by decide
  have hanalysed : ((fresh []).run bracketOpened).Checks
      (.analysed 1 (Provider.lexical.analyse (fun _ => false) "up(")) := by
    refine ⟨trivial, nofun, ?_⟩
    rintro _ _ e ⟨⟩ hm
    rw [htasks] at hm
    cases List.mem_singleton.1 hm
    exact ⟨_, rfl⟩
  have hrun : Goes Checks (fresh []) bracketChecked :=
    ((Goes.refl.run (hopened _)).step _ hanalysed).run (hshown _)
  have hret : Event.returned 2 (.snapshot ⟨⟨"file:///rules"⟩, 1, "up(", some bracketReport⟩)
      ∈ bracketChecked.history := by decide +kernel
  obtain ⟨_, _, _, _, hmatch⟩ := (reports_match []).1 bracketChecked hrun
  exact ⟨hret, (hmatch 2 _ bracketReport hret rfl).2.2⟩

end Workspace

end PromqlServer.Document
