import PromqlServer.Proofs.Document.Courses

/-!
The errors of the document cache. An `open`, `change`, `close`, `version`, `document` or `commit`
fails just when the state of its document and of the lifetime say so, whatever was done before; and
an operation that fails leaves everything as it was.
-/

namespace PromqlServer.Document

theorem Reply.failed_iff {a e : StoreError} : Reply.failed a = .failed e ↔ e = a := by
  rw [Reply.failed.injEq]
  exact eq_comm

def Reply.error? : Reply → Option StoreError
  | .failed e => some e
  | _ => none

theorem Reply.error?_eq_some {reply : Reply} {e : StoreError} :
    reply.error? = some e ↔ reply = .failed e := by
  cases reply <;> simp [Reply.error?]

/-! ## Refusals of a store -/

namespace Store

section Refused

variable {s : Store} {uri : Uri} {e : StoreError}

theorem Orderly.isSome_document? (h : Orderly s) (uri : Uri) :
    (s.document? uri).isSome = (s.lookup uri).isSome := by
  cases hlook : s.lookup uri with
  | none => rw [document?_eq_none hlook]; rfl
  | some k =>
    obtain ⟨d, hdoc, -⟩ := h.document?_eq_some hlook
    rw [hdoc]
    rfl

theorem Orderly.track_failed (h : Orderly s) {content : String} {version : Int} :
    (s.track uri content version).2 = .failed e ↔
      (e = .alreadyOpen uri ∧ (s.document? uri).isSome = true) ∨
      (e = .shutDown ∧ (s.document? uri).isSome = false ∧ s.isCancelled s.lifetime = true) := by
  rw [h.isSome_document?]
  unfold track
  cases (s.lookup uri).isSome with
  | true =>
    rw [if_pos rfl, Reply.failed_iff]
    simp
  | false =>
    rw [if_neg (by simp)]
    cases s.isCancelled s.lifetime with
    | true =>
      rw [if_pos rfl, Reply.failed_iff]
      simp
    | false => simp

/-- A call that reads from a document. -/
theorem Orderly.read_failed (h : Orderly s) {work : Work}
    (hwork : work = .version ∨ work = .snapshot) :
    (s.visit uri work).2 = .failed e ↔
      e = .expired uri ∧ (s.document? uri = none ∨ s.isCancelled s.lifetime = true) := by
  cases hlook : s.lookup uri with
  | none =>
    simp only [visit, document?_eq_none hlook, Reply.failed_iff]
    simp
  | some k =>
    obtain ⟨d, hdoc, -, hu, -⟩ := h.document?_eq_some hlook
    have hread : (s.visit uri work).2 = .failed e ↔
        s.isCancelled s.lifetime = true ∧ Reply.failed (.expired uri) = .failed e := by
      rcases hwork with rfl | rfl
      · simp only [visit, hdoc, attend, h.isCancelled_tracked hlook, hu]
        split <;> simp_all
      · simp only [visit, hdoc, attend, h.isCancelled_tracked hlook, hu]
        split <;> simp_all
    rw [hread, Reply.failed_iff, hdoc, and_comm]
    simp

theorem Orderly.change_failed (h : Orderly s) {content : String} {version : Int} :
    (s.visit uri (.change content version)).2 = .failed e ↔
      (e = .expired uri ∧ (s.document? uri = none ∨ s.isCancelled s.lifetime = true)) ∨
      ∃ found, s.document? uri = some found ∧ e = .outOfOrder uri found.2.version version ∧
        s.isCancelled s.lifetime = false ∧ version ≤ found.2.version := by
  cases hlook : s.lookup uri with
  | none =>
    simp only [visit, document?_eq_none hlook, Reply.failed_iff]
    simp
  | some k =>
    obtain ⟨d, hdoc, -, hu, -⟩ := h.document?_eq_some hlook
    simp only [visit, hdoc, attend, h.isCancelled_tracked hlook, hu]
    cases s.isCancelled s.lifetime with
    | true =>
      rw [if_pos rfl, Reply.failed_iff]
      simp
    | false =>
      by_cases hle : version ≤ d.version
      · rw [if_neg (by simp), if_pos hle, Reply.failed_iff]
        simp [hle]
      · simp [hle, replace]

theorem close_failed : (s.perform (.close uri)).2 = .failed e ↔
    e = .expired uri ∧ s.document? uri = none := by
  simp only [perform]
  cases s.document? uri with
  | none =>
    rw [Reply.failed_iff]
    simp
  | some found => simp

/-- A commit for an edition that was handed out is refused by its scope alone: as long as it is not
cancelled, the version of the document is that of the edition. -/
theorem Issued.commit_reply {edition : Edition} (he : s.Issued edition) (report : Report) :
    (s.perform (.commit edition report)).2
      = if s.isCancelled edition.scope then .failed (.expired edition.uri) else .committed := by
  cases hlive : s.isCancelled edition.scope with
  | true =>
    obtain ⟨d, n, hd, hu, -⟩ := he
    simp [perform, hd, attend, hlive, hu]
  | false =>
    obtain ⟨d, hd, hu, hversion⟩ := he.version_eq hlive
    simp [perform, hd, attend, hlive, hversion]

/-- A request that fails does nothing. -/
theorem Performed.of_failed {s' : Store} {r : Request} (hp : Performed s r s' (.failed e)) :
    s' = s := by
  cases hp
  rfl

end Refused

end Store

/-! ## Refusals in a course -/

namespace Course

/-- The error with which an operation fails, if it does. -/
def refusal? (c : Course) (d : CacheOp) : Option StoreError := (c.attempt d).2.bind Reply.error?

def tracks (c : Course) (uri : Uri) : Bool := (c.stateOf? uri).isSome

/-- The lifetime was cancelled. -/
def isOver (c : Course) : Bool := c.workspace.store.isCancelled c.workspace.store.lifetime

section Refusals

variable {c : Course} {d : CacheOp} {uri : Uri} {e : StoreError}

theorem Settled.refusal?_eq_some (h : c.Settled) {r : Request}
    (hr : d.request? c.editions = some r) :
    c.refusal? d = some e ↔ (c.workspace.store.perform r).2 = .failed e := by
  obtain ⟨-, -, hreply⟩ := h.attempt d
  rw [refusal?, hreply, Store.effect, hr]
  exact Reply.error?_eq_some

theorem not_tracks_iff : c.tracks uri = false ↔ c.workspace.store.document? uri = none := by
  simp [tracks, stateOf?]

theorem Settled.track_refused (h : c.Settled) {content : String} {version : Int} :
    c.refusal? (.track uri content version) = some e ↔
      (e = .alreadyOpen uri ∧ c.tracks uri = true) ∨
      (e = .shutDown ∧ c.tracks uri = false ∧ c.isOver = true) := by
  rw [h.refusal?_eq_some rfl, Store.perform, h.orderly.track_failed]
  simp only [tracks, stateOf?, Option.isSome_map, isOver]

theorem Settled.change_refused (h : c.Settled) {content : String} {version : Int} :
    c.refusal? (.change uri content version) = some e ↔
      (e = .expired uri ∧ (c.tracks uri = false ∨ c.isOver = true)) ∨
      ∃ current, c.stateOf? uri = some current ∧ e = .outOfOrder uri current.version version ∧
        c.isOver = false ∧ version ≤ current.version := by
  rw [h.refusal?_eq_some rfl, Store.perform, h.orderly.change_failed, not_tracks_iff]
  apply or_congr Iff.rfl
  constructor
  · rintro ⟨found, hfound, hrest⟩
    exact ⟨found.2, by rw [stateOf?, hfound]; rfl, hrest⟩
  · rintro ⟨current, hcurrent, hrest⟩
    obtain ⟨found, hfound, rfl⟩ := Option.map_eq_some_iff.1 hcurrent
    exact ⟨found, hfound, hrest⟩

theorem Settled.close_refused (h : c.Settled) :
    c.refusal? (.close uri) = some e ↔ e = .expired uri ∧ c.tracks uri = false := by
  rw [h.refusal?_eq_some rfl, Store.close_failed, not_tracks_iff]

theorem Settled.version_refused (h : c.Settled) : c.refusal? (.version uri) = some e ↔
    e = .expired uri ∧ (c.tracks uri = false ∨ c.isOver = true) := by
  rw [h.refusal?_eq_some rfl, Store.perform, h.orderly.read_failed (Or.inl rfl), not_tracks_iff]
  rfl

theorem Settled.snapshot_refused (h : c.Settled) : c.refusal? (.snapshot uri) = some e ↔
    e = .expired uri ∧ (c.tracks uri = false ∨ c.isOver = true) := by
  rw [h.refusal?_eq_some rfl, Store.perform, h.orderly.read_failed (Or.inr rfl), not_tracks_iff]
  rfl

theorem Settled.commit_refused (h : c.Settled) {number : Nat} {report : Report} :
    c.refusal? (.commit uri number report) = some e ↔
      e = .expired uri ∧ c.isLive? uri number = some false := by
  unfold isLive?
  cases hn : (editionsOf uri c.editions)[number]? with
  | none =>
    have hnone : (CacheOp.commit uri number report).request? c.editions = none := by
      simp [CacheOp.request?, hn]
    obtain ⟨-, -, hreply⟩ := h.attempt (.commit uri number report)
    rw [refusal?, hreply, Store.effect, hnone]
    simp
  | some edition =>
    have hmem := List.mem_of_getElem? hn
    have hr : (CacheOp.commit uri number report).request? c.editions
        = some (.commit edition report) := by
      simp [CacheOp.request?, hn]
    rw [h.refusal?_eq_some hr, (h.issued edition (List.mem_filter.1 hmem).1).commit_reply,
      uri_of_editionsOf hmem]
    cases hlive : c.workspace.store.isCancelled edition.scope with
    | true =>
      rw [if_pos rfl, Reply.failed_iff]
      simp [hlive]
    | false => simp [hlive]

/-- A commit publishes its report just when its edition is live. -/
theorem Settled.commit_published (h : c.Settled) (uri : Uri) (number : Nat) (report : Report) :
    (c.take (.commit uri number report)).workspace.published = c.workspace.published ++
      if c.isLive? uri number = some true then [report] else [] := by
  have hpublished := h.published (.commit uri number report)
  refine hpublished.trans (congrArg _ ?_)
  unfold isLive?
  cases hn : (editionsOf uri c.editions)[number]? with
  | none => simp [CacheOp.request?, hn]
  | some edition =>
    have hmem := List.mem_of_getElem? hn
    simp only [CacheOp.request?, hn, Option.map_some, Option.getD_some, Request.call, Call.due,
      (h.issued edition (List.mem_filter.1 hmem).1).commit_reply]
    by_cases hlive : c.workspace.store.isCancelled edition.scope = true <;> simp [hlive]

theorem due_failed (e : StoreError) (call : Call) : call.due (.failed e) = [] := by
  unfold Call.due
  split <;> simp

theorem Settled.kept_of_refused (h : c.Settled) (hd : c.refusal? d = some e) :
    (c.take d).workspace.store = c.workspace.store ∧ (c.take d).editions = c.editions ∧
      (c.take d).workspace.published = c.workspace.published := by
  obtain ⟨-, hstore, hreply⟩ := h.attempt d
  have hfailed : (c.attempt d).2 = some (.failed e) := by
    obtain ⟨reply, hsome, herror⟩ := Option.bind_eq_some_iff.1 hd
    rw [hsome, Reply.error?_eq_some.1 herror]
  obtain ⟨r, hr, hperform⟩ : ∃ r, d.request? c.editions = some r ∧
      (c.workspace.store.perform r).2 = .failed e := by
    cases hr : d.request? c.editions with
    | none => simp [hreply, Store.effect, hr] at hfailed
    | some r => exact ⟨r, rfl, (h.refusal?_eq_some hr).1 hd⟩
  refine ⟨?_, ?_, ?_⟩
  · have hp := h.orderly.performed r
    rw [hperform] at hp
    refine hstore.trans ?_
    rw [Store.effect, hr]
    exact hp.of_failed
  · simp [Course.take, hfailed, Reply.edition?]
  · have hpublished := h.published d
    rw [hr, Option.map_some, Option.getD_some, hperform, due_failed, List.append_nil] at hpublished
    exact hpublished

end Refusals

end Course

/-- After all that may have been done, a request fails just when it should. To open a document, it
must not be tracked, and the lifetime must go on; to change it or to read from it, it must be
tracked, and the lifetime must go on, and a change must have a greater version; to close it, it must
be tracked. A commit fails just when its edition is cancelled, and publishes its report just when
the edition is live. What fails does nothing to the documents and editions, and publishes
nothing. -/
theorem refused_exactly (lifetime : Scope) (ops : List CacheOp) (uri : Uri) :
    let c := course lifetime ops
    (∀ content version e, c.refusal? (.track uri content version) = some e ↔
      (e = .alreadyOpen uri ∧ c.tracks uri = true) ∨
      (e = .shutDown ∧ c.tracks uri = false ∧ c.isOver = true)) ∧
    (∀ content version e, c.refusal? (.change uri content version) = some e ↔
      (e = .expired uri ∧ (c.tracks uri = false ∨ c.isOver = true)) ∨
      ∃ current, c.stateOf? uri = some current ∧ e = .outOfOrder uri current.version version ∧
        c.isOver = false ∧ version ≤ current.version) ∧
    (∀ e, c.refusal? (.close uri) = some e ↔ e = .expired uri ∧ c.tracks uri = false) ∧
    (∀ e, c.refusal? (.version uri) = some e ↔
      e = .expired uri ∧ (c.tracks uri = false ∨ c.isOver = true)) ∧
    (∀ e, c.refusal? (.snapshot uri) = some e ↔
      e = .expired uri ∧ (c.tracks uri = false ∨ c.isOver = true)) ∧
    (∀ number report e, c.refusal? (.commit uri number report) = some e ↔
      e = .expired uri ∧ c.isLive? uri number = some false) ∧
    (∀ number report, (c.take (.commit uri number report)).workspace.published
      = c.workspace.published ++ if c.isLive? uri number = some true then [report] else []) ∧
    ∀ d e, c.refusal? d = some e → (c.take d).workspace.store = c.workspace.store ∧
      (c.take d).editions = c.editions ∧
      (c.take d).workspace.published = c.workspace.published := by
  intro c
  have h := Course.settled_course lifetime ops
  refine ⟨?_, ?_, ?_, ?_, ?_, ?_, ?_, ?_⟩
  · exact fun content version e => h.track_refused
  · exact fun content version e => h.change_refused
  · exact fun e => h.close_refused
  · exact fun e => h.version_refused
  · exact fun e => h.snapshot_refused
  · exact fun number report e => h.commit_refused
  · exact h.commit_published uri
  · exact fun d e hd => h.kept_of_refused hd

/-- A document is opened and changed. -/
def groupsChanged : Course :=
  course [] [.track ⟨"file:///groups"⟩ "up" 1, .change ⟨"file:///groups"⟩ "down" 2]

/-- The findings for the text before the change. -/
def staleFindings : CacheOp := .commit ⟨"file:///groups"⟩ 0 ⟨⟨"file:///groups"⟩, 1, []⟩

theorem refused_exactly_groups :
    groupsChanged.refusal? staleFindings = some (.expired ⟨"file:///groups"⟩) ∧
      (groupsChanged.take staleFindings).workspace.store = groupsChanged.workspace.store := by
  have hrefused : groupsChanged.refusal? staleFindings
      = some (.expired ⟨"file:///groups"⟩) := by decide
  obtain ⟨-, -, -, -, -, -, -, hkept⟩ := refused_exactly []
    [.track ⟨"file:///groups"⟩ "up" 1, .change ⟨"file:///groups"⟩ "down" 2] ⟨"file:///groups"⟩
  exact ⟨hrefused, (hkept staleFindings _ hrefused).1⟩

end PromqlServer.Document
