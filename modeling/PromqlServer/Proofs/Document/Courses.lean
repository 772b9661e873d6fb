import PromqlServer.Proofs.Document.Projections
import PromqlServer.Proofs.Document.Tracking

/-!
A document cache that is used by one caller at a time: operations one after the other, each of which
comes to its end before the next one is made, and the cancellation of the lifetime at any point. A
`commit` is for a version context that was handed out before, and names it by its place among the
contexts of its document's name, so that it stays the same when operations on other documents are
left out.
-/

namespace PromqlServer.Document

/-- What is done with a document cache. -/
inductive CacheOp where
  | track (uri : Uri) (content : String) (version : Int)
  | change (uri : Uri) (content : String) (version : Int)
  | close (uri : Uri)
  | version (uri : Uri)
  | snapshot (uri : Uri)
  | isOpen (uri : Uri)
  | size
  /-- A report is committed for an edition of this name, the first of which is number 0. -/
  | commit (uri : Uri) (number : Nat) (report : Report)
  | shutdown
  /-- The lifetime is cancelled, or the scope above it that is this deep in the tree. -/
  | cancel (depth : Nat)
  deriving DecidableEq, Repr

/-- The edition that a reply hands out. -/
def Reply.edition? : Reply → Option Edition
  | .opened e => some e
  | _ => none

/-- A workspace, with what was done and handed out so far. -/
structure Course where
  workspace : Workspace
  /-- The editions that were handed out, the oldest first. -/
  editions : List Edition := []
  /-- What was done, with the reply if it was a request, the oldest first. -/
  answers : List (CacheOp × Option Reply) := []
  deriving DecidableEq, Repr

/-- The editions of one name. -/
def editionsOf (uri : Uri) (editions : List Edition) : List Edition :=
  editions.filter fun e => e.uri = uri

namespace CacheOp

/-- The request that is made. A commit for an edition that was not handed out is none. -/
def request? (editions : List Edition) : CacheOp → Option Request
  | .track uri content v => some (.track uri content v)
  | .change uri content v => some (.change uri content v)
  | .close uri => some (.close uri)
  | .version uri => some (.version uri)
  | .snapshot uri => some (.snapshot uri)
  | .isOpen uri => some (.isOpen uri)
  | .size => some .size
  | .commit uri number report => ((editionsOf uri editions)[number]?).map fun e => .commit e report
  | .shutdown => some .shutdown
  | .cancel _ => none

/-- What is cancelled other than by a request. -/
def scopes (lifetime : Scope) : CacheOp → List Scope
  | .cancel depth => [lifetime.take depth]
  | _ => []

end CacheOp

namespace Course

/-- The workspace after an operation, and its reply. -/
def attempt (c : Course) (d : CacheOp) : Workspace × Option Reply :=
  match d.request? c.editions with
  | some r =>
    let (w, id) := c.workspace.call {} r
    (w, w.reply? id)
  | none => (c.workspace.run ((d.scopes c.workspace.store.lifetime).map .cancel), none)

def take (c : Course) (d : CacheOp) : Course where
  workspace := (c.attempt d).1
  editions := c.editions ++ ((c.attempt d).2.bind Reply.edition?).toList
  answers := c.answers ++ [(d, (c.attempt d).2)]

/-- Whether an edition of a name is live, if it was handed out. -/
def isLive? (c : Course) (uri : Uri) (number : Nat) : Option Bool :=
  ((editionsOf uri c.editions)[number]?).map fun e => !c.workspace.store.isCancelled e.scope

/-- The state of the document of a name, if it is tracked. -/
def stateOf? (c : Course) (uri : Uri) : Option Slot :=
  (c.workspace.store.document? uri).map Prod.snd

end Course

/-- All that is done with a new workspace. -/
def course (lifetime : Scope) (ops : List CacheOp) : Course :=
  ops.foldl Course.take { workspace := Workspace.fresh lifetime }

/-! ## Publications of a call -/

/-- The report of a publication that begins. -/
def Event.report? : Event → Option Report
  | .began _ report => some report
  | _ => none

/-- The reports that were published, the oldest first. -/
def Workspace.published (w : Workspace) : List Report := (w.history.filterMap Event.report?).reverse

/-- What a call that comes to this reply has yet to publish. -/
def Call.due (reply : Reply) : Call → List Report
  | .find _ (.commit _ report) | .arrive _ (.commit _ report) | .queued _ (.commit _ report)
  | .publish _ report => if reply = .committed then [report] else []
  | _ => []

theorem Completes.of_publishing {id n k : Nat} {s s' : Store} {report : Report} {reply : Reply}
    (h : Completes id n s (.publishing k report) s' reply) : reply = .committed := by
  cases h with
  | done ht =>
    cases ht
    rfl
  | next ht => cases ht

theorem Turned.due_done {s s' : Store} {id : Nat} {c : Call} {reply : Reply}
    (h : Turned s id c (.done s' reply)) :
    c.due reply = (c.notes id).reverse.filterMap Event.report? := by
  cases h with
  | answered hc _ hr =>
    have hne : reply ≠ .committed := by
      rintro rfl
      cases hr
    cases c with
    | find u work => cases work <;> simp [Call.due, Call.notes, hne]
    | track | isOpen | size | remove => rfl
    | _ => cases hc
  | @left _ _ work _ hd hcheck _ =>
    cases work with
    | commit e report =>
      have hne : reply ≠ .committed := by
        rintro rfl
        simp only [Store.check] at hcheck
        split at hcheck <;> cases hcheck
      simp [Call.due, Call.notes, hne]
    | _ => rfl
  | tracked | replaced | ended | collected => rfl

theorem Turned.due_next {s s' : Store} {id : Nat} {c c' : Call} {reply : Reply}
    (h : Turned s id c (.next s' c')) (hreply : ∀ k r, c' = .publishing k r → reply = .committed) :
    c.due reply = (c.notes id).reverse.filterMap Event.report? ++ c'.due reply := by
  cases h with
  | began => simp [Call.due, Call.notes, Event.report?, hreply _ _ rfl]
  | @found _ work | @arrived _ work => cases work <;> rfl
  | _ => rfl

namespace Workspace

theorem published_append {w : Workspace} {es h : List Event} (hh : w.history = es ++ h) :
    w.published = (h.filterMap Event.report?).reverse ++ es.reverse.filterMap Event.report? := by
  simp [published, hh]

section Alone

variable {w : Workspace} {id : Nat} {s s' : Store} {c c' : Call} {reply : Reply}

theorem Alone.published_next (h : Alone w id .answer s c) (ht : s.turn id c = .next s' c') :
    (w.step (.advance id)).published
      = w.published ++ (c.notes id).reverse.filterMap Event.report? := by
  apply published_append
  simp only [step, advance, h.task?, advanceCall, h.store, ht, note_eq]
  rfl

theorem Alone.published_done (h : Alone w id .answer s c) (ht : s.turn id c = .done s' reply) :
    (w.step (.advance id)).published
      = w.published ++ (c.notes id).reverse.filterMap Event.report? := by
  have hhistory : (w.step (.advance id)).history
      = (.returned id reply :: c.notes id) ++ w.history := by
    simp only [step, advance, h.task?, advanceCall, h.store, ht, note_eq, follow]
    rfl
  rw [published_append hhistory, List.reverse_cons, List.filterMap_append]
  simp [published, Event.report?]

end Alone

/-- A call that is alone publishes what it has to, and nothing else. -/
theorem published_completes {id n : Nat} {s s' : Store} {c : Call} {reply : Reply}
    (hc : Completes id n s c s' reply) {w : Workspace} (hw : Alone w id .answer s c) {fuel : Nat}
    (hn : n ≤ fuel) : (resumeWithin {} id fuel w).published = w.published ++ c.due reply := by
  induction hc generalizing w fuel with
  | @done s s' c reply ht =>
    obtain ⟨m, rfl⟩ : ∃ m, fuel = m + 1 := ⟨fuel - 1, by omega⟩
    obtain ⟨-, htasks, -, -⟩ := hw.answered ht
    have hturned : Turned s id c (.done s' reply) := ht ▸ turn_cases s id c
    rw [resumeWithin, hw.nextOf? (by rw [ht]; simp)]
    simp only [resumeWithin_of_none m (nextOf?_of_idle {} id htasks)]
    rw [hw.published_done ht, hturned.due_done]
  | @next n s s' s'' c c' reply ht hrest ih =>
    obtain ⟨m, rfl⟩ : ∃ m, fuel = m + 1 := ⟨fuel - 1, by omega⟩
    obtain ⟨halone, -, -⟩ := hw.next ht
    have hturned : Turned s id c (.next s' c') := ht ▸ turn_cases s id c
    have hdue : c.due reply = (c.notes id).reverse.filterMap Event.report? ++ c'.due reply := by
      apply hturned.due_next
      rintro k r rfl
      exact hrest.of_publishing
    rw [resumeWithin, hw.nextOf? (by rw [ht]; simp), ih halone (by omega), hw.published_next ht,
      hdue, List.append_assoc]

theorem call_published {w : Workspace} (hidle : w.tasks = []) (hs : w.store.Quiet) {r : Request}
    (hr : w.store.Accepts r) :
    (w.call {} r).1.published = w.published ++ r.call.due (w.store.perform r).2 := by
  obtain ⟨v, n, fuel, hv, halone, hfuel, hc, hcall⟩ := call_eq_resume hidle hs hr
  rw [hcall, published_completes hc halone hfuel, hv]
  rfl

end Workspace

/-! ## What an operation does to the store -/

namespace Store

def cancelAll (s : Store) (scopes : List Scope) : Store := scopes.foldl cancel s

/-- What an operation does to a store, and its reply. -/
def effect (s : Store) (editions : List Edition) (d : CacheOp) : Store × Option Reply :=
  match d.request? editions with
  | some r => ((s.perform r).1, some (s.perform r).2)
  | none => (s.cancelAll (d.scopes s.lifetime), none)

/-- What a request does to an orderly store. -/
inductive Performed (s : Store) : Request → Store → Reply → Prop
  | kept {r : Request} {reply : Reply} (h : ∀ e, reply ≠ .opened e) : Performed s r s reply
  | tracked {uri : Uri} {content : String} {version : Int} (hnone : s.lookup uri = none)
      (hlive : s.isCancelled s.lifetime = false) :
      Performed s (.track uri content version) (s.withSlot uri content version)
        (.opened ⟨uri, version, content, s.slots.length, s.editionScope s.slots.length 0⟩)
  | changed {uri : Uri} {content : String} {version : Int} {k : Nat} {d : Slot}
      (hk : s.lookup uri = some k) (hd : s.slots[k]? = some d) (hu : d.uri = uri)
      (hlive : s.isCancelled s.lifetime = false) :
      Performed s (.change uri content version) (s.withText k d content version)
        (.opened ⟨d.uri, version, content, k, s.editionScope k (d.revision + 1)⟩)
  | closed {uri : Uri} {k : Nat} {d : Slot} (hk : s.lookup uri = some k)
      (hd : s.slots[k]? = some d) :
      Performed s (.close uri) (s.withoutSlot uri k) (.closed d.close)
  | committed {e : Edition} {report : Report} (hlive : s.isCancelled e.scope = false) :
      Performed s (.commit e report) (s.record e.slot report) .committed
  | shut : Performed s .shutdown s.emptied (.drained (s.closeAll (s.table.map Prod.snd)))

section Cases

variable {s : Store}

/-- A slot in use is cancelled with the lifetime only. -/
theorem Orderly.isCancelled_tracked (h : Orderly s) {uri : Uri} {k : Nat}
    (hk : s.lookup uri = some k) : s.isCancelled (s.slotScope k) = s.isCancelled s.lifetime := by
  cases hlive : s.isCancelled s.lifetime with
  | false => exact h.isCancelled_slot ⟨uri, mem_table_of_lookup hk⟩ hlive
  | true => exact (Workspace.isCancelled_slotScope s k).2 (Or.inr hlive)

theorem attend_kept {work : Work} (hchange : ∀ content version, work ≠ .change content version)
    (hcommit : ∀ e report, work ≠ .commit e report) (k : Nat) (d : Slot) :
    (s.attend k d work).1 = s ∧ ∀ e, (s.attend k d work).2 ≠ .opened e := by
  cases work with
  | change content version => exact absurd rfl (hchange content version)
  | commit e report => exact absurd rfl (hcommit e report)
  | close => exact ⟨rfl, by simp [attend]⟩
  | version | snapshot =>
    simp only [attend]
    split <;> exact ⟨rfl, by simp⟩

/-- A call that only looks at a document. -/
theorem performed_visit {r : Request} {uri : Uri} {work : Work}
    (hchange : ∀ content version, work ≠ .change content version)
    (hcommit : ∀ e report, work ≠ .commit e report) :
    Performed s r (s.visit uri work).1 (s.visit uri work).2 := by
  unfold visit
  split
  · exact .kept (by simp)
  · obtain ⟨hs, hr⟩ := attend_kept hchange hcommit (s := s) _ _
    rw [hs]
    exact .kept hr

theorem Orderly.performed (h : Orderly s) (r : Request) :
    Performed s r (s.perform r).1 (s.perform r).2 := by
  cases r with
  | isOpen uri => exact .kept (by simp [perform])
  | size => exact .kept (by simp [perform])
  | version uri => exact performed_visit (by simp) (by simp)
  | snapshot uri => exact performed_visit (by simp) (by simp)
  | shutdown => exact .shut
  | track uri content version =>
    simp only [perform]
    cases hlook : s.lookup uri with
    | some k =>
      simp only [track, hlook, Option.isSome_some, if_true]
      exact .kept (by simp)
    | none =>
      cases hlive : s.isCancelled s.lifetime with
      | true =>
        simp only [track, hlook, hlive, Option.isSome_none, Bool.false_eq_true, if_false, if_true]
        exact .kept (by simp)
      | false =>
        rw [track_eq hlook hlive]
        exact .tracked hlook hlive
  | change uri content version =>
    cases hlook : s.lookup uri with
    | none =>
      simp only [perform, visit, document?_eq_none hlook]
      exact .kept (by simp)
    | some k =>
      obtain ⟨d, hdoc, hd, hu, -⟩ := h.document?_eq_some hlook
      simp only [perform, visit, hdoc, attend]
      split
      · exact .kept (by simp)
      · rename_i hlive
        split
        · exact .kept (by simp)
        · rw [h.isCancelled_tracked hlook, Bool.not_eq_true] at hlive
          exact .changed hlook hd hu hlive
  | close uri =>
    cases hlook : s.lookup uri with
    | none =>
      simp only [perform, document?_eq_none hlook]
      exact .kept (by simp)
    | some k =>
      obtain ⟨d, hdoc, hd, -, -⟩ := h.document?_eq_some hlook
      simp only [perform, hdoc]
      exact .closed hlook hd
  | commit e report =>
    simp only [perform]
    split
    · exact .kept (by simp)
    · simp only [attend]
      split
      · exact .kept (by simp)
      · rename_i hlive
        rw [Bool.or_eq_true, not_or, Bool.not_eq_true] at hlive
        exact .committed hlive.1

theorem Performed.orderly {s' : Store} {r : Request} {reply : Reply} (hp : Performed s r s' reply)
    (h : Orderly s) : Orderly s' := by
  cases hp with
  | kept => exact h
  | tracked hnone hlive => exact (h.withSlot hnone hlive _ _).1
  | changed hk hd _ hlive => exact (h.withText hk hd hlive _ _).1
  | closed hk _ => exact (h.withoutSlot hk).1
  | committed _ => exact (h.record _ _).1
  | shut => exact h.emptied.1

theorem Performed.lifetime {s' : Store} {r : Request} {reply : Reply}
    (hp : Performed s r s' reply) : s'.lifetime = s.lifetime := by
  cases hp <;> rfl

end Cases

/-! ## Editions that were handed out -/

/-- An edition of a document: the current one, or one that was cancelled when the document was
changed. -/
def Issued (s : Store) (e : Edition) : Prop :=
  ∃ d n, s.slots[e.slot]? = some d ∧ d.uri = e.uri ∧ e.scope = s.editionScope e.slot n ∧
    (n = d.revision ∧ e.version = d.version ∨
      n < d.revision ∧ s.editionScope e.slot n ∈ s.cancelled)

section Issued

variable {s s' : Store} {e : Edition}

/-- The document of the edition has no other text than before. -/
theorem Issued.of_slot (he : Issued s e) (hl : s'.lifetime = s.lifetime)
    (hslot : ∀ d, s.slots[e.slot]? = some d → ∃ d', s'.slots[e.slot]? = some d' ∧ d'.uri = d.uri ∧
      d'.revision = d.revision ∧ d'.version = d.version)
    (hsub : ∀ x ∈ s.cancelled, x ∈ s'.cancelled) : Issued s' e := by
  obtain ⟨d, n, hd, hu, hscope, hcase⟩ := he
  obtain ⟨d', hd', hu', hrevision, hversion⟩ := hslot d hd
  have hscopes : s'.editionScope e.slot n = s.editionScope e.slot n := by
    simp only [editionScope, slotScope, hl]
  refine ⟨d', n, hd', hu'.trans hu, by rw [hscopes, hscope], ?_⟩
  rw [hrevision, hversion, hscopes]
  exact hcase.imp_right fun h => ⟨h.1, hsub _ h.2⟩

theorem Issued.cancel (he : Issued s e) (x : Scope) : Issued (s.cancel x) e :=
  he.of_slot rfl (fun d hd => ⟨d, hd, rfl, rfl, rfl⟩) fun _ hx => List.mem_cons_of_mem _ hx

theorem Issued.withText (he : Issued s e) (hq : Quiet s) {k : Nat} {d : Slot}
    (hd : s.slots[k]? = some d) (content : String) (version : Int) :
    Issued (s.withText k d content version) e := by
  have hslot := slot_withText hq hd content version
  by_cases hk : e.slot = k
  · subst hk
    obtain ⟨d', n, hd', hu, hscope, hcase⟩ := he
    rw [hd] at hd'
    cases hd'
    refine ⟨d.revised content version, n, by rw [hslot, if_pos rfl], hu, hscope, Or.inr ?_⟩
    rcases hcase with ⟨rfl, _⟩ | ⟨hlt, hmem⟩
    · exact ⟨Nat.lt_succ_self _, List.mem_cons_self ..⟩
    · exact ⟨Nat.lt_succ_of_lt hlt, List.mem_cons_of_mem _ hmem⟩
  · refine he.of_slot rfl (fun d' hd' => ?_) fun _ hx => List.mem_cons_of_mem _ hx
    exact ⟨d', by rw [hslot, if_neg hk, hd'], rfl, rfl, rfl⟩

theorem Performed.issued {r : Request} {reply : Reply} (hp : Performed s r s' reply)
    (h : Orderly s) (he : Issued s e) : Issued s' e := by
  cases hp with
  | kept => exact he
  | tracked =>
    refine he.of_slot rfl (fun d hd => ⟨d, ?_, rfl, rfl, rfl⟩) fun _ hx => hx
    rw [withSlot, List.getElem?_append_left (List.getElem?_eq_some_iff.1 hd).1, hd]
  | changed _ hd _ _ => exact he.withText h.quiet hd _ _
  | closed =>
    exact he.of_slot rfl (fun d hd => ⟨d, hd, rfl, rfl, rfl⟩) fun _ hx => List.mem_cons_of_mem _ hx
  | @committed e' report _ =>
    refine he.of_slot rfl (fun d hd => ?_) fun _ hx => hx
    rw [h.quiet.slot_record e'.slot report, hd]
    split
    · exact ⟨_, rfl, rfl, rfl, rfl⟩
    · exact ⟨_, rfl, rfl, rfl, rfl⟩
  | shut =>
    exact he.of_slot rfl (fun d hd => ⟨d, hd, rfl, rfl, rfl⟩) fun _ hx => List.mem_cons_of_mem _ hx

/-- A request hands out the current edition of the document that it is about. -/
theorem Performed.opened {r : Request} (hp : Performed s r s' (.opened e)) (h : Orderly s) :
    Issued s' e ∧ ∀ uri, r.touches uri = decide (e.uri = uri) := by
  cases hp with
  | kept hr => exact absurd rfl (hr e)
  | @tracked uri content version =>
    refine ⟨⟨{ uri, version, content }, 0, ?_, rfl, rfl, Or.inl ⟨rfl, rfl⟩⟩, fun _ => rfl⟩
    simp [withSlot]
  | @changed uri content version k d hk hd hu _ =>
    refine ⟨⟨d.revised content version, d.revision + 1, ?_, rfl, rfl, Or.inl ⟨rfl, rfl⟩⟩, ?_⟩
    · rw [slot_withText h.quiet hd content version, if_pos rfl]
    · subst hu
      exact fun _ => rfl

/-- The edition is live only if it is the current one. -/
theorem Issued.version_eq (he : Issued s e) (hlive : s.isCancelled e.scope = false) :
    ∃ d, s.slots[e.slot]? = some d ∧ d.uri = e.uri ∧ d.version = e.version := by
  obtain ⟨d, n, hd, hu, hscope, ⟨-, hversion⟩ | ⟨-, hmem⟩⟩ := he
  · exact ⟨d, hd, hu, hversion.symm⟩
  · have hcancelled : s.isCancelled e.scope = true := by
      rw [hscope]
      exact (Workspace.isCancelled_editionScope s e.slot n).2 (Or.inl hmem)
    rw [hcancelled] at hlive
    cases hlive

theorem Issued.accepts (he : Issued s e) (report : Report) : s.Accepts (.commit e report) := by
  obtain ⟨d, n, hd, -⟩ := he
  exact (List.getElem?_eq_some_iff.1 hd).1

theorem Issued.fits (he : Issued s e) (report : Report) : (Request.commit e report).Fits s := by
  obtain ⟨d, n, hd, hu, hscope, -⟩ := he
  refine ⟨?_, n, hscope⟩
  rw [uris_of_slot hd, hu]

end Issued

end Store

/-! ## Courses -/

namespace Course

/-- Nothing is under way, the documents are in order, and the editions are those of documents. -/
structure Settled (c : Course) : Prop where
  idle : c.workspace.tasks = []
  orderly : c.workspace.store.Orderly
  issued : ∀ e ∈ c.editions, c.workspace.store.Issued e

section Settled

variable {c : Course} {d : CacheOp} {r : Request}

theorem uri_of_editionsOf {uri : Uri} {editions : List Edition} {e : Edition}
    (he : e ∈ editionsOf uri editions) : e.uri = uri := by
  simpa using (List.mem_filter.1 he).2

theorem mem_of_commit {editions : List Edition} {e : Edition} {report : Report}
    (h : d.request? editions = some (.commit e report)) : e ∈ editions := by
  cases d with
  | commit uri number r =>
    obtain ⟨e', he', heq⟩ := Option.map_eq_some_iff.1 h
    cases heq
    exact (List.mem_filter.1 (List.mem_of_getElem? he')).1
  | cancel depth => cases h
  | _ => cases h

theorem Settled.accepts (h : c.Settled) (hr : d.request? c.editions = some r) :
    c.workspace.store.Accepts r := by
  cases r with
  | commit e report => exact (h.issued e (mem_of_commit hr)).accepts report
  | _ => trivial

theorem Settled.fits (h : c.Settled) (hr : d.request? c.editions = some r) :
    r.Fits c.workspace.store := by
  cases r with
  | commit e report => exact (h.issued e (mem_of_commit hr)).fits report
  | _ => trivial

theorem run_cancel (w : Workspace) (scopes : List Scope) :
    (w.run (scopes.map .cancel)).store = w.store.cancelAll scopes ∧
      (w.run (scopes.map .cancel)).tasks = w.tasks ∧
      (w.run (scopes.map .cancel)).published = w.published := by
  induction scopes generalizing w with
  | nil => exact ⟨rfl, rfl, rfl⟩
  | cons x scopes ih =>
    obtain ⟨hstore, htasks, hpublished⟩ := ih (w.step (.cancel x))
    exact ⟨hstore, htasks, hpublished⟩

/-- An operation comes to its end, and does to the store what it does by itself. -/
theorem Settled.attempt (h : c.Settled) (d : CacheOp) :
    (c.attempt d).1.tasks = [] ∧
      (c.attempt d).1.store = (c.workspace.store.effect c.editions d).1 ∧
      (c.attempt d).2 = (c.workspace.store.effect c.editions d).2 := by
  unfold Course.attempt Store.effect
  cases hr : d.request? c.editions with
  | none =>
    obtain ⟨hstore, htasks, -⟩ := run_cancel c.workspace (d.scopes c.workspace.store.lifetime)
    exact ⟨htasks.trans h.idle, hstore, rfl⟩
  | some r =>
    obtain ⟨hid, hstore, htasks, hreply⟩ :=
      Workspace.call_spec h.idle h.orderly.quiet (h.accepts hr)
    refine ⟨htasks, hstore, ?_⟩
    simp only [hid]
    exact hreply

theorem Settled.published (h : c.Settled) (d : CacheOp) : (c.attempt d).1.published
    = c.workspace.published ++ ((d.request? c.editions).map fun r =>
      r.call.due (c.workspace.store.perform r).2).getD [] := by
  unfold Course.attempt
  cases hr : d.request? c.editions with
  | none =>
    obtain ⟨-, -, hpublished⟩ := run_cancel c.workspace (d.scopes c.workspace.store.lifetime)
    simpa using hpublished
  | some r => exact Workspace.call_published h.idle h.orderly.quiet (h.accepts hr)

theorem cancelAll_scopes (s : Store) (d : CacheOp) :
    s.cancelAll (d.scopes s.lifetime) = s ∨
      ∃ x, x <+: s.lifetime ∧ s.cancelAll (d.scopes s.lifetime) = s.cancel x := by
  cases d with
  | cancel depth => exact Or.inr ⟨_, List.take_prefix _ _, rfl⟩
  | _ => exact Or.inl rfl

theorem settled_fresh (lifetime : Scope) :
    Settled { workspace := Workspace.fresh lifetime } where
  idle := rfl
  orderly := Store.orderly_fresh lifetime
  issued := by simp

theorem Settled.take (h : c.Settled) (d : CacheOp) : (c.take d).Settled := by
  obtain ⟨hidle, hstore, hreply⟩ := h.attempt d
  have hmem : ∀ e ∈ (c.take d).editions, e ∈ c.editions ∨
      (c.workspace.store.effect c.editions d).2 = some (.opened e) := by
    intro e he
    rcases List.mem_append.1 he with he | he
    · exact Or.inl he
    · rw [hreply, Option.mem_toList] at he
      obtain ⟨reply, hsome, hopened⟩ := Option.bind_eq_some_iff.1 he
      cases reply with
      | opened e' =>
        cases hopened
        exact Or.inr hsome
      | _ => cases hopened
  suffices heffect : (c.workspace.store.effect c.editions d).1.Orderly ∧
      ∀ e ∈ (c.take d).editions, (c.workspace.store.effect c.editions d).1.Issued e by
    rw [← hstore] at heffect
    exact ⟨hidle, heffect.1, heffect.2⟩
  unfold Store.effect at hmem ⊢
  cases hr : d.request? c.editions with
  | some r =>
    have hp := h.orderly.performed r
    refine ⟨hp.orderly h.orderly, fun e he => ?_⟩
    rcases hmem e he with he | he
    · exact hp.issued h.orderly (h.issued e he)
    · simp only [hr, Option.some.injEq] at he
      rw [he] at hp
      exact (hp.opened h.orderly).1
  | none =>
    have hold : ∀ e ∈ (c.take d).editions, e ∈ c.editions := by
      intro e he
      rcases hmem e he with he | he
      · exact he
      · simp [hr] at he
    rcases cancelAll_scopes c.workspace.store d with hsame | ⟨x, hx, hcancel⟩
    · simp only [hsame]
      exact ⟨h.orderly, fun e he => h.issued e (hold e he)⟩
    · simp only [hcancel]
      exact ⟨h.orderly.cancel_above hx, fun e he => (h.issued e (hold e he)).cancel x⟩

theorem settled_course (lifetime : Scope) (ops : List CacheOp) :
    (course lifetime ops).Settled := by
  have hrun : ∀ (ops : List CacheOp) (c : Course), c.Settled →
      (ops.foldl Course.take c).Settled := by
    intro ops
    induction ops with
    | nil => exact fun c hc => hc
    | cons d ops ih => exact fun c hc => ih _ (hc.take d)
  exact hrun ops _ (settled_fresh lifetime)

end Settled

end Course

end PromqlServer.Document
