import PromqlServer.Proofs.Document.Endings
import PromqlServer.Proofs.Session.Runs

/-!
The end of a session, by a `shutdown` request or by its lifetime watcher. The phases of a session
only go forward, and nothing is open before `initialize`. From the moment `shutdown` of the document
cache has cancelled the lifetime and drained the table, the table stays empty, and each `open`,
`change` and `commit` that is not past its check is refused, whatever the lifecycle guard had let in
before (`session_end_final`). A call that is past its check is not stopped by the drain
(`check_outlives_drain`); at the awaits of the program no call is.
-/

namespace PromqlServer.Session

open PromqlServer.Document PromqlServer.Document.Workspace

/-! ## Phases -/

theorem Phase.rank_le_shutDown (p : Phase) : p.rank ≤ Phase.shutDown.rank := by
  cases p <;> decide

/-- What leads to a later phase than those in which it is valid is valid once. -/
theorem Phase.advance_once {now next later p : Phase} {method : String} {valid : List Phase}
    (hvalid : ∀ q ∈ valid, q.rank < next.rank) (h : now.advance method valid next = .ok p)
    (hle : p.rank ≤ later.rank) : later.advance method valid next = .error ⟨method, later⟩ := by
  obtain ⟨_, rfl⟩ := Phase.advance_eq_ok_iff.1 h
  refine if_neg fun hmem => ?_
  have := hvalid later hmem
  omega

theorem Steady.rank_le {s : Session} (h : Steady s) (a : Action) :
    s.phase.rank ≤ (s.step a).phase.rank := by
  have hs := h.stepped a
  generalize s.step a = s' at hs
  cases hs with
  | received hr =>
    cases hr with
    | alone outbox hs =>
      subst hs
      exact Nat.le_refl _
    | started phase job hs _ _ hrank =>
      subst hs
      exact hrank
  | advanced _ hadvanced =>
    cases hadvanced with
    | aside _ _ _ hp => exact Nat.le_of_eq (congrArg Phase.rank hp.symm)
    | entered _ _ _ _ _ _ hp =>
      rw [hp]
      split
      · exact Phase.rank_le_shutDown _
      · exact Nat.le_refl _
  | still | document | backend | ended => exact Nat.le_refl _

theorem Goes.rank_le {allows : Session → Action → Prop} {s s' : Session} (h : Goes allows s s')
    (hs : Steady s) : s.phase.rank ≤ s'.phase.rank := by
  induction h with
  | refl => exact Nat.le_refl _
  | step h a _ ih => exact Nat.le_trans ih ((h.steady hs).rank_le a)

/-! ## Before the handshake -/

/-- Before the handshake nothing is under way but the watch. -/
structure Untouched (s : Session) : Prop where
  jobs : ∀ job ∈ s.kinds, job.isWatch = true
  tasks : s.workspace.tasks = []
  table : s.workspace.store.table = []
  notices : s.notices = []

/-- Without tasks there is nothing that goes on by itself. -/
theorem step_of_idle {w : Workspace} (h : w.tasks = []) {b : Document.Action}
    (hb : (Action.document b).Occurs) : w.step b = w := by
  have htask : ∀ id, w.task? id = none := fun id => by simp [Workspace.task?, h]
  cases b with
  | advance id => simp only [Workspace.step, Workspace.advance, htask]
  | analysed id analysis => simp only [Workspace.step, Workspace.analysed, htask]
  | _ => exact hb.elim

theorem Untouched.step {s : Session} (hs : Steady s) (h : s.phase = .created → Untouched s)
    {a : Action} (ha : a.Occurs) (hcreated : (s.step a).phase = .created) :
    Untouched (s.step a) := by
  have hphase : s.phase = .created := by
    have hle := hs.rank_le a
    rw [hcreated] at hle
    cases hp : s.phase <;> rw [hp] at hle <;> first | rfl | cases hle
  have hu := h hphase
  have hstepped := hs.stepped a
  generalize s.step a = s' at hstepped hcreated
  cases hstepped with
  | received hr =>
    cases hr with
    | alone outbox hs' hn =>
      refine ⟨?_, ?_, ?_, hn.trans hu.notices⟩ <;> subst hs'
      exacts [hu.jobs, hu.tasks, hu.table]
    | started phase job hs' _ hactive =>
      subst hs'
      exact absurd hcreated hactive
  | still => exact hu
  | advanced hm hadvanced =>
    have hwatch := hu.jobs _ (List.mem_map_of_mem hm)
    cases hadvanced with
    | aside _ _ _ _ _ _ _ hw =>
      rw [hwatch] at hw
      cases hw.1
    | entered _ _ _ _ _ _ hp =>
      rw [hp, if_pos hwatch] at hcreated
      cases hcreated
  | @document b =>
    have hcache : (s.step (.document b)).cache = s.cache :=
      (cache_document s b).trans (step_of_idle (w := s.cache) hu.tasks ha)
    refine ⟨hu.jobs, (congrArg Workspace.tasks hcache).trans hu.tasks,
      (congrArg (·.store.table) hcache).trans hu.table, ?_⟩
    have hsent := congrArg Workspace.outbox hcache
    rw [hs.cache_outbox, (hs.step (.document b)).cache_outbox] at hsent
    exact hsent.trans hu.notices
  | backend => exact ⟨hu.jobs, hu.tasks, hu.table, hu.notices⟩
  | ended => exact ⟨hu.jobs, hu.tasks, hu.table, hu.notices⟩

theorem untouched_fresh (defaultUrl : String) (settings : Prometheus.Settings) :
    Untouched (fresh defaultUrl settings) where
  jobs := by simp [fresh, kinds, Job.isWatch]
  tasks := rfl
  table := rfl
  notices := rfl

section Reached

variable {defaultUrl : String} {settings : Prometheus.Settings} {s s' : Session}

theorem Reaches.untouched (h : Reaches (fresh defaultUrl settings) s) :
    s.phase = .created → Untouched s := by
  induction h with
  | refl => exact fun _ => untouched_fresh defaultUrl settings
  | step h a ha ih => exact Untouched.step (Reaches.steady h) ih ha

/-! ## After the end -/

/-- A shutdown has cancelled the lifetime of the documents and emptied the table. -/
def Drained (s : Session) : Prop :=
  (∃ id c, s.workspace.callAt id = some c ∧ c.isCollecting = true) ∨
    ∃ id ds, Event.returned id (.drained ds) ∈ s.workspace.history

theorem Drained.emptied (h : Drained s) (hr : Reaches (fresh defaultUrl settings) s) :
    Emptied s.cache := by
  have hwithdrawn := hr.cache.handled.withdrawn
  rcases h with ⟨id, c, hc, hcollecting⟩ | ⟨id, ds, hreturned⟩
  · exact hwithdrawn.emptied id c hc hcollecting
  · exact hwithdrawn.drained id ds hreturned

/-- No call of a session is past its check where it awaits a lock. -/
theorem Proceeds.not_isGranted (h : Proceeds (fresh defaultUrl settings) s) {id : Nat} {c : Call}
    (hc : s.workspace.callAt id = some c) : c.isGranted = false := by
  cases hgranted : c.isGranted with
  | false => rfl
  | true =>
    have hmidway := Call.isMidway_of_isGranted hgranted
    rw [h.atRest id c hc] at hmidway
    cases hmidway

end Reached

/-- What becomes of the call `id` when the table is drained, with `es` for the events since then: it
begins no publication, and if it opens or changes a document, it fails. -/
structure FailsSince (w : Workspace) (es : List Event) (id : Nat) : Prop where
  begins : ∀ r, Event.began id r ∉ es
  returns : ∀ q, Event.invoked id q ∈ w.history → w.callAt id = none →
    ∃ reply, Event.returned id reply ∈ w.history
  opens : ∀ uri content version, Event.invoked id (.track uri content version) ∈ w.history →
    ∀ reply, Event.returned id reply ∈ es → reply = .failed .shutDown
  changes : ∀ uri content version, Event.invoked id (.change uri content version) ∈ w.history →
    ∀ reply, Event.returned id reply ∈ es → reply = .failed (.expired uri)

/-- A call that is refused since the drain fails, by the request that it was made for. -/
theorem Reaches.failsSince {defaultUrl : String} {settings : Prometheus.Settings} {s : Session}
    (h : Reaches (fresh defaultUrl settings) s) {id : Nat} {es : List Event}
    (hrefused : Refused id s.cache es) : FailsSince s.workspace es id := by
  have hreply : ∀ q e, q.refusal? = some e → Event.invoked id q ∈ s.workspace.history →
      ∀ reply, Event.returned id reply ∈ es → reply = .failed e := by
    intro q e he hq reply hreply
    obtain ⟨q', hq', hrefusal⟩ := hrefused.replies reply hreply
    cases h.cache.handled.publishOrder.once id q' q hq' hq
    exact hrefusal e he
  exact ⟨hrefused.begins, h.cache.handled.allReturned id,
    fun uri content version => hreply _ _ rfl, fun uri content version => hreply _ _ rfl⟩

/-- The phases of a session only go forward, and the client opens it and shuts it down at most once.
Before it is opened, nothing is tracked and nothing was sent about documents. Once a `shutdown` has
drained the documents, nothing is tracked ever after, and every call that opens a document is
refused; so is every call that changes one, and none begins to publish, if it was not past its
check. No call was, if calls are left only where they await. -/
theorem session_end_final {defaultUrl : String} {settings : Prometheus.Settings} {s : Session}
    (h : Reaches (fresh defaultUrl settings) s) :
    (∀ s', Reaches s s' → s.phase.rank ≤ s'.phase.rank) ∧
    (∀ options p, s.phase.beginHandshake = .ok p →
      ∀ s', Reaches (s.step (.receive (.handshake options))) s' → ∀ options',
        s'.step (.receive (.handshake options')) = s'.refuse ⟨"initialize", s'.phase⟩) ∧
    (∀ p, s.phase.shutdown = .ok p → ∀ s', Reaches (s.step (.receive .shutdown)) s' →
      s'.step (.receive .shutdown) = s'.refuse ⟨"shutdown", s'.phase⟩) ∧
    (s.phase = .created → s.workspace.store.table = [] ∧ s.notices = []) ∧
    (s.Drained → ∀ s', Reaches s s' → s'.workspace.store.table = [] ∧
      (∀ id uri content version,
        s'.workspace.store.turn id (Request.track uri content version).call
          = .done s'.workspace.store (.failed .shutDown) ∧
        s'.workspace.store.turn id (Request.change uri content version).call
          = .done s'.workspace.store (.failed (.expired uri))) ∧
      ∃ es, s'.workspace.history = es ++ s.workspace.history ∧
        -- step by step: every `open` fails, and all else that is not past its check
        (∀ id uri content version,
          Event.invoked id (.track uri content version) ∈ s'.workspace.history →
          FailsSince s'.workspace es id) ∧
        (∀ id, (∀ c, s.workspace.callAt id = some c → c.isGranted = false) →
          FailsSince s'.workspace es id) ∧
        -- from one await to the next: everything fails
        (Proceeds (fresh defaultUrl settings) s → ∀ id, FailsSince s'.workspace es id)) := by
  have hs := h.steady
  refine ⟨fun s' h' => Goes.rank_le h' hs, fun options p hp s' h' options' => ?_,
    fun p hp s' h' => ?_, fun hcreated => ?_, fun hdrained s' h' => ?_⟩
  · have hle := Goes.rank_le h' (hs.step _)
    have hopened : (s.step (.receive (.handshake options))).phase = p := by
      simp only [step, receive, hp]
      rfl
    rw [hopened] at hle
    have hagain : s'.phase.beginHandshake = .error ⟨"initialize", s'.phase⟩ :=
      Phase.advance_once (by decide) hp hle
    simp only [step, receive, hagain]
  · have hle := Goes.rank_le h' (hs.step _)
    have hshut : (s.step (.receive .shutdown)).phase = p := by
      simp only [step, receive, hp]
      rfl
    rw [hshut] at hle
    have hagain : s'.phase.shutdown = .error ⟨"shutdown", s'.phase⟩ :=
      Phase.advance_once (by decide) hp hle
    simp only [step, receive, hagain]
  · exact ⟨(h.untouched hcreated).table, (h.untouched hcreated).notices⟩
  · have hreached : Reaches (fresh defaultUrl settings) s' := Goes.trans h h'
    have hsound := h.cache.handled.sound (sound_fresh [0])
    obtain ⟨hend, es, hh, hrefused⟩ := (hdrained.emptied h).refuses hsound (h.cache_from h')
    have hfails : ∀ id, (∀ c, s.workspace.callAt id = some c → c.isGranted = false) →
        FailsSince s'.workspace es id := fun id hid => hreached.failsSince (hrefused id hid)
    refine ⟨hend.2, fun id uri content version => ⟨hend.turn_call rfl id, hend.turn_call rfl id⟩,
      es, hh, fun id uri content version htrack => hfails id fun c hc => ?_, hfails,
      fun hrun id => hfails id fun c hc => hrun.not_isGranted hc⟩
    obtain ⟨q, hq, hserves⟩ := hsound.staged.calls id c hc
    have hold : Event.invoked id q ∈ s'.cache.history := by
      rw [hh]
      exact List.mem_append_right _ hq
    cases hreached.cache.handled.publishOrder.once id q _ hold htrack
    exact hserves.not_isGranted

/-- A report goes out, a change waits for it and a message was let in to open another document when
the session is shut down. -/
def shutWhileWaiting : List Action :=
  [.receive (.handshake none), .receive (.opened ⟨"file:///rules"⟩ "up" 1), .advance 2,
    .document (.advance 0), .document (.advance 1), .document (.analysed 1 (.found [])),
    .document (.advance 1), .document (.advance 1),
    .receive (.changed ⟨"file:///rules"⟩ 2 [⟨none, "down"⟩]), .advance 3, .document (.advance 2),
    .receive (.opened ⟨"file:///alerts"⟩ "up" 1),
    .receive .shutdown, .advance 5, .advance 5, .document (.advance 3)]

/-- The message is handled, the report is out, and the change has the lock. -/
def leftOver : List Action :=
  [.advance 4, .document (.advance 4), .document (.advance 1), .document (.advance 2)]

def waitingSession : Session := shutWhileWaiting.foldl Session.stride (fresh "" {})

def endedSession : Session := leftOver.foldl Session.stride waitingSession

/-- The change and the opening are refused. -/
theorem session_end_final_waiting : endedSession.workspace.store.table = [] ∧
    Event.returned 2 (.failed (.expired ⟨"file:///rules"⟩)) ∈ endedSession.workspace.history ∧
    Event.returned 4 (.failed .shutDown) ∈ endedSession.workspace.history := by
  have hrun : Proceeds (fresh "" {}) waitingSession := .run .refl (by decide)
  have hon : Proceeds waitingSession endedSession := .run .refl (by decide)
  have hdrained : waitingSession.Drained :=
    Or.inl ⟨3, .collecting 0 [] [], by decide +kernel, rfl⟩
  have htidy := (hrun.reaches.cache.handled.sound (sound_fresh [0])).tidy
  have hwaiting : waitingSession.workspace.callAt 2 = some (.queued 0 (.change "down" 2)) := by
    decide +kernel
  have hstarted : waitingSession.workspace.started = 4 := by decide +kernel
  have hchange : Event.invoked 2 (.change ⟨"file:///rules"⟩ "down" 2)
      ∈ endedSession.workspace.history := by decide +kernel
  have hopening : Event.invoked 4 (.track ⟨"file:///alerts"⟩ "up" 1)
      ∈ endedSession.workspace.history := by decide +kernel
  obtain ⟨_, _, _, _, hfinal⟩ := session_end_final hrun.reaches
  obtain ⟨htable, _, es, hh, hrefused⟩ := hfinal hdrained endedSession hon.reaches
  refine ⟨htable, ?_, ?_⟩
  · have hfails := hrefused.2.2 hrun 2
    obtain ⟨reply, hmem⟩ := hfails.returns _ hchange (by decide +kernel)
    have hnew : Event.returned 2 reply ∈ es := by
      rw [hh, List.mem_append] at hmem
      exact hmem.resolve_right (htidy.not_returned hwaiting reply)
    rw [← hfails.changes _ _ _ hchange reply hnew]
    exact hmem
  · have hfails := hrefused.2.2 hrun 4
    obtain ⟨reply, hmem⟩ := hfails.returns _ hopening (by decide +kernel)
    have hnew : Event.returned 4 reply ∈ es := by
      rw [hh, List.mem_append] at hmem
      refine hmem.resolve_right fun hold => ?_
      have hlt : 4 < waitingSession.workspace.started := (htidy.answered 4 reply hold).1
      omega
    rw [← hfails.opens _ _ _ hopening reply hnew]
    exact hmem

/-- A `commit` for one document and a `change` of another one are past their checks when the
`shutdown` cancels the lifetime and drains the table. -/
def drainedPastChecks : List Action :=
  [.receive (.handshake none), .receive (.opened ⟨"file:///rules"⟩ "up" 1), .advance 2,
    .document (.advance 0), .document (.advance 1), .document (.analysed 1 (.found [])),
    .document (.advance 1), .document (.advance 1),
    .receive (.opened ⟨"file:///alerts"⟩ "up" 1), .advance 3, .document (.advance 2),
    .receive (.changed ⟨"file:///alerts"⟩ 2 [⟨none, "down"⟩]), .advance 4, .document (.advance 4),
    .document (.advance 4), .document (.advance 4),
    .receive .shutdown, .advance 5, .advance 5, .document (.advance 5), .document (.advance 5)]

/-- Both go on after the drain: the report is published, and the `change` succeeds. -/
theorem check_outlives_drain :
    ∃ s s' es, Reaches (fresh "" {}) s ∧ s.Drained ∧ Reaches s s' ∧
      s'.workspace.history = es ++ s.workspace.history ∧
      Event.began 1 ⟨⟨"file:///rules"⟩, 1, []⟩ ∈ es ∧
      Event.invoked 4 (.change ⟨"file:///alerts"⟩ "down" 2) ∈ s.workspace.history ∧
      Event.returned 4 (.opened ⟨⟨"file:///alerts"⟩, 2, "down", 1, [0, 1, 1]⟩) ∈ es := by
  have hrun : Reaches (fresh "" {}) ((fresh "" {}).run drainedPastChecks) :=
    Goes.run .refl (by decide)
  have hon : Reaches ((fresh "" {}).run drainedPastChecks)
      (((fresh "" {}).run drainedPastChecks).run
        [.document (.advance 1), .document (.advance 4), .document (.advance 4)]) :=
    Goes.run .refl (by decide)
  have hdrained : ((fresh "" {}).run drainedPastChecks).Drained :=
    Or.inl ⟨5, .collect [0, 1] [], by decide +kernel, rfl⟩
  refine ⟨_, _, [.scheduled 6 ⟨⟨"file:///alerts"⟩, 2, "down", 1, [0, 1, 1]⟩,
    .returned 4 (.opened ⟨⟨"file:///alerts"⟩, 2, "down", 1, [0, 1, 1]⟩),
    .began 1 ⟨⟨"file:///rules"⟩, 1, []⟩], hrun, hdrained, hon, by decide +kernel, by decide,
    by decide +kernel, by decide⟩

end PromqlServer.Session
