import PromqlServer.Proofs.Prometheus.Requests
import PromqlServer.Proofs.Prometheus.Resources
import PromqlServer.Proofs.Session.Configuration

/-!
What `completion` asks of the data source, with whatever else goes on in the session. An inquiry
follows one message through a run: the operations that its job hands to the client of the data
source, and the requests made for them. There is one request at most, and none without a document, a
completion context and a source; and whatever the text of the document is, the URL is one of a few
forms below the base of the source (`completion_confined`).
-/

namespace PromqlServer.Session

open PromqlServer.Document PromqlServer.Prometheus PromqlServer.Query PromqlServer.Text

/-! ## Jobs by their numbers -/

section Jobs

variable {s : Session} {id n : Nat} {a : Action}

theorem job?_become (s : Session) (id : Nat) (job : Job) (n : Nat) :
    (s.become id job).job? n = if n = id then (s.job? id).map fun _ => job else s.job? n :=
  Numbered.item?_replace s.jobs id job n

theorem job?_finish (s : Session) (id n : Nat) :
    (s.finish id).job? n = if n = id then none else s.job? n :=
  Numbered.item?_erase s.jobs id n

theorem Distinct.job?_start (h : Distinct s.jobs s.numbered) (job : Job) (n : Nat) :
    (s.start job).job? n = if n = s.numbered then some job else s.job? n :=
  Numbered.item?_concat s.jobs s.numbered job
    (Numbered.item?_eq_none h.below (Nat.le_refl _)) n

theorem Shifted.numbered_le {s' : Session} (h : Shifted s id s') : s.numbered ≤ s'.numbered := by
  cases h with
  | still _ hn | became _ _ hn | finished _ hn => exact Nat.le_of_eq hn.symm
  | passed _ _ hn => exact hn ▸ Nat.le_succ _

/-- The other jobs stay as they are. -/
theorem Shifted.job?_eq {s' : Session} (h : Shifted s id s') (hd : Distinct s.jobs s.numbered)
    (hne : n ≠ id) (hn : n < s.numbered) : s'.job? n = s.job? n := by
  have hjobs : ∀ r : Session, s'.jobs = r.jobs → s'.job? n = r.job? n := by
    intro r hr
    rw [job?, hr]
    rfl
  cases h with
  | still h => exact hjobs s h
  | became job h => exact (hjobs _ h).trans ((job?_become s id job n).trans (if_neg hne))
  | finished h => exact (hjobs _ h).trans ((job?_finish s id n).trans (if_neg hne))
  | passed job h =>
    have hstart := (hd.job?_start job n).trans (if_neg (Nat.ne_of_lt hn))
    exact (hjobs _ h).trans ((job?_finish _ id n).trans ((if_neg hne).trans hstart))

theorem numbered_le_step (s : Session) (a : Action) : s.numbered ≤ (s.step a).numbered := by
  cases a with
  | receive m =>
    have hr := receive_cases s m
    simp only [Session.step]
    generalize s.receive m = s' at hr
    cases hr with
    | alone outbox hs =>
      subst hs
      exact Nat.le_succ _
    | started phase job hs =>
      subst hs
      exact Nat.le_succ _
  | advance id =>
    simp only [Session.step]
    split
    · exact Nat.le_refl _
    · exact (shifted_advanceJob s id _).numbered_le
  | document | backend | endLifetime => exact Nat.le_refl _

/-- A job goes on by its own steps only. -/
theorem Steady.job?_step (h : Steady s) (hn : n < s.numbered) (ha : a ≠ .advance n) :
    (s.step a).job? n = s.job? n := by
  cases a with
  | receive m =>
    have hr := receive_cases s m
    simp only [Session.step]
    generalize s.receive m = s' at hr
    cases hr with
    | alone outbox hs =>
      subst hs
      rfl
    | started phase job hs =>
      subst hs
      exact (h.distinct.job?_start job n).trans (if_neg (Nat.ne_of_lt hn))
  | advance id =>
    simp only [Session.step]
    split
    · rfl
    · exact (shifted_advanceJob s id _).job?_eq h.distinct (fun heq => ha (heq ▸ rfl)) hn
  | document | backend | endLifetime => rfl

end Jobs

/-! ## The document of a completion -/

/-- A call for the text of a document. It gets beyond the table only if the document is tracked. -/
inductive Seeks (uri : Uri) (seen : Bool) : Call → Prop
  | find : Seeks uri seen (.find uri .snapshot)
  | arrive (h : seen = true) (k : Nat) : Seeks uri seen (.arrive k .snapshot)
  | queued (h : seen = true) (k : Nat) : Seeks uri seen (.queued k .snapshot)

section Seeks

variable {uri : Uri} {seen : Bool} {c c' : Call} {st st' : Store} {id : Nat}

theorem Seeks.mono (h : Seeks uri seen c) (more : Bool) : Seeks uri (seen || more) c := by
  cases h with
  | find => exact .find
  | arrive h k => exact .arrive (by simp [h]) k
  | queued h k => exact .queued (by simp [h]) k

theorem Seeks.next (h : Seeks uri seen c) (ht : Turned st id c (.next st' c')) :
    Seeks uri (seen || (st.lookup uri).isSome) c' := by
  cases h with
  | find =>
    cases ht with
    | found hk => exact .arrive (by simp [hk]) _
  | arrive h k =>
    cases ht with
    | arrived => exact .queued (by simp [h]) k
  | queued h k => cases ht

theorem Seeks.done (h : Seeks uri seen c) {document : Snapshot}
    (ht : Turned st id c (.done st' (.snapshot document))) : seen = true := by
  cases h with
  | find =>
    cases ht with
    | answered _ _ hr => cases hr
  | arrive h k => exact h
  | queued h k => exact h

end Seeks

/-- The call of a completion for its document, and whether the document was tracked at some time
since the call was made. -/
structure Sought (w : Workspace) (task : Nat) (uri : Uri) (seen : Bool) : Prop where
  invoked : Event.invoked task (.snapshot uri) ∈ w.history
  started : task < w.started
  stage : ∀ t, (task, t) ∈ w.tasks → ∃ c, t = .call .answer c ∧ Seeks uri seen c
  snapshots : ∀ document, Event.returned task (.snapshot document) ∈ w.history → seen = true

section Sought

variable {w : Workspace} {task : Nat} {uri : Uri} {seen : Bool}

theorem Sought.mono (h : Sought w task uri seen) (more : Bool) :
    Sought w task uri (seen || more) := by
  refine ⟨h.invoked, h.started, fun t ht => ?_, fun document hd => ?_⟩
  · obtain ⟨c, hc, hseeks⟩ := h.stage t ht
    exact ⟨c, hc, hseeks.mono more⟩
  · simp [h.snapshots document hd]

theorem Sought.step (h : Sought w task uri seen) (hd : w.Discerned) (b : Document.Action) :
    Sought (w.step b) task uri (seen || (w.store.lookup uri).isSome) := by
  obtain ⟨taskStep, traded⟩ := hd.stepped b
  have hnew : task ≠ w.started := Nat.ne_of_lt h.started
  refine ⟨?_, Nat.lt_of_lt_of_le h.started traded.started, fun t ht => ?_, fun document hr => ?_⟩
  · rw [traded.history]
    exact List.mem_append_right _ h.invoked
  · rcases traded.mem ht with hafter | hold
    · generalize (w.step b).store = st at taskStep
      cases taskStep with
      | invoked | scheduled | opened =>
        cases List.mem_singleton.1 hafter
        exact absurd rfl hnew
      | next hturned =>
        cases List.mem_singleton.1 hafter
        obtain ⟨c, heq, hseeks⟩ := h.stage _ (traded.mem_before (List.mem_singleton_self _))
        cases heq
        exact ⟨_, rfl, hseeks.next hturned⟩
      | closed | clearSent | analysing | found | committing =>
        cases List.mem_singleton.1 hafter
        obtain ⟨c, heq, -⟩ := h.stage _ (traded.mem_before (List.mem_singleton_self _))
        cases heq
      | _ => cases hafter
    · exact (h.mono _).stage t hold
  · rw [traded.history] at hr
    rcases List.mem_append.1 hr with hes | hold
    · have hnotes : ∀ {id c}, Event.returned task (.snapshot document) ∉ Call.notes id c :=
        fun {id c} => returned_notin_notes id task c _
      generalize (w.step b).store = st at taskStep
      cases taskStep with
      | finished _ _ hturned =>
        obtain ⟨rfl, rfl⟩ : task = _ ∧ Reply.snapshot document = _ := by
          simpa [hnotes] using hes
        obtain ⟨c, heq, hseeks⟩ := h.stage _ (traded.mem_before (List.mem_singleton_self _))
        cases heq
        simp [hseeks.done hturned]
      | closed | committed =>
        obtain ⟨rfl, rfl⟩ : task = _ ∧ Reply.snapshot document = _ := by
          simpa [hnotes] using hes
        obtain ⟨c, heq, -⟩ := h.stage _ (traded.mem_before (List.mem_singleton_self _))
        cases heq
      | opened => simp [hnotes] at hes
      | next | committing => exact absurd hes hnotes
      | invoked | scheduled | cleared | cancelled | clearSent | dropped | found =>
        cases List.mem_singleton.1 hes
      | _ => cases hes
    · exact (h.mono _).snapshots document hold

/-- The call begins with the table. -/
theorem sought_invoke (w : Workspace) (uri : Uri) (seen : Bool)
    (htasks : ∀ x ∈ w.tasks, x.1 < w.started)
    (hreturned : ∀ id reply, Event.returned id reply ∈ w.history → id < w.started) :
    Sought (w.step (.invoke .answer (.snapshot uri))) w.started uri seen := by
  refine ⟨List.mem_cons_self .., Nat.lt_succ_self _, fun t ht => ?_, fun document hd => ?_⟩
  · have hmem : (w.started, t) ∈ w.tasks ++ [(w.started, .call .answer (.find uri .snapshot))] := ht
    rcases List.mem_append.1 hmem with hold | hnew
    · exact absurd (htasks _ hold) (Nat.lt_irrefl _)
    · cases List.mem_singleton.1 hnew
      exact ⟨_, rfl, .find⟩
  · have hmem : Event.returned w.started (.snapshot document)
        ∈ Event.invoked w.started (.snapshot uri) :: w.history := hd
    have hold := List.mem_of_ne_of_mem (by simp) hmem
    exact absurd (hreturned _ _ hold) (Nat.lt_irrefl _)

/-- Calls that have returned have a number. -/
theorem returned_lt_step (hd : w.Discerned)
    (h : ∀ id reply, Event.returned id reply ∈ w.history → id < w.started) (b : Document.Action) :
    ∀ id reply, Event.returned id reply ∈ (w.step b).history → id < (w.step b).started := by
  intro id reply hr
  obtain ⟨taskStep, traded⟩ := hd.stepped b
  refine Nat.lt_of_lt_of_le ?_ traded.started
  rw [traded.history] at hr
  rcases List.mem_append.1 hr with hes | hold
  · have hnotes : ∀ {n c}, Event.returned id reply ∉ Call.notes n c :=
      fun {n c} => returned_notin_notes n id c reply
    have hbefore : ∀ t, (id, t) ∈ w.tasks → id < w.started := fun t ht => hd.below (id, t) ht
    generalize (w.step b).store = st at taskStep
    cases taskStep with
    | opened | closed | finished | committed =>
      obtain ⟨rfl, rfl⟩ : id = _ ∧ reply = _ := by simpa [hnotes] using hes
      exact hbefore _ (traded.mem_before (List.mem_singleton_self _))
    | next | committing => exact absurd hes hnotes
    | invoked | scheduled | cleared | cancelled | clearSent | dropped | found =>
      cases List.mem_singleton.1 hes
    | _ => cases hes
  · exact h id reply hold

end Sought

/-! ## Sessions along a run -/

/-- What is true of a session whatever happens to it. -/
structure Regular (s : Session) : Prop where
  steady : Steady s
  discerned : s.cache.Discerned
  returned : ∀ id reply, Event.returned id reply ∈ s.cache.history → id < s.cache.started
  client : ∃ settings lost j n b, InOrder settings lost s.client j n b

section Regular

variable {s : Session} {a : Action}

theorem regular_fresh (defaultUrl : String) (settings : Prometheus.Settings) :
    Regular (fresh defaultUrl settings) where
  steady := steady_fresh defaultUrl settings
  discerned := Workspace.discerned_fresh [0]
  returned := nofun
  client := ⟨settings, .ok ⟨404, .ok "", ""⟩, {}, 0, 0, inOrder_fresh settings _⟩

theorem Followed.step {w w' : Workspace} (h : Followed w a w') : w' = w ∨ ∃ b, w' = w.step b := by
  cases h with
  | still => exact Or.inl rfl
  | entered | document | ended => exact Or.inr ⟨_, rfl⟩

theorem Regular.step (h : Regular s) (a : Action) : Regular (s.step a) where
  steady := h.steady.step a
  discerned := by
    rcases (h.steady.followed a).step with hsame | ⟨b, hb⟩
    · rw [hsame]
      exact h.discerned
    · rw [hb]
      exact h.discerned.step b
  returned := by
    rcases (h.steady.followed a).step with hsame | ⟨b, hb⟩
    · rw [hsame]
      exact h.returned
    · rw [hb]
      exact returned_lt_step h.discerned h.returned b
  client := by
    obtain ⟨settings, lost, j, n, b, hkept⟩ := h.client
    rw [(h.steady.steered a).client]
    cases s.event? a with
    | none => exact ⟨settings, lost, j, n, b, hkept⟩
    | some e => exact ⟨settings, lost, _, hkept.step e⟩

theorem Regular.run (h : Regular s) (actions : List Action) : Regular (s.run actions) := by
  induction actions generalizing s with
  | nil => exact h
  | cons a as ih => exact ih (h.step a)

theorem Regular.numbers (h : Regular s) : Numbers s.client := by
  obtain ⟨_, _, _, _, _, hkept⟩ := h.client
  exact hkept.numbers

/-- The base of the source that is installed was read from a text. -/
theorem Regular.parsed (h : Regular s) {source : Source} (hs : s.client.installed = some source) :
    ∃ text, Base.parse text = .ok source.base := by
  obtain ⟨_, _, j, _, _, hkept⟩ := h.client
  have hproduces : Produces (some source) _ := hs ▸ hkept.produces
  exact hproduces.parsed

end Regular

/-! ## Completions -/

/-- The operation that a job hands to the client of the backend with an action, by its number. -/
def consulted? (s : Session) (job : Nat) : Action → Option Nat
  | .advance id =>
    if id = job then ((s.job? id).bind s.operationOf?).map fun _ => s.client.arrived else none
  | _ => none

/-- A message and what its job has asked of the backend so far. -/
structure Inquiry where
  session : Session
  /-- The operations that the job has handed to the client of the backend. -/
  operations : List Nat := []
  /-- The requests made for them, each with the source that was installed when it was made. -/
  sent : List (Option Source × Url) := []
  /-- Whether the document has been tracked at some time. -/
  tracked : Bool := false

def Inquiry.step (job : Nat) (uri : Uri) (q : Inquiry) (a : Action) : Inquiry where
  session := q.session.step a
  operations := q.operations ++ (q.session.consulted? job a).toList
  sent := q.sent ++ requestsOf q.operations q.session.client.installed
    (q.session.client.newRequests (q.session.step a).client)
  tracked := q.tracked || (q.session.workspace.store.lookup uri).isSome

/-- A completion comes, and then the session goes on. -/
def completion (s : Session) (uri : Uri) (position : Position) (actions : List Action) : Inquiry :=
  actions.foldl (Inquiry.step s.numbered uri)
    { session := s.step (.receive (.complete uri position)) }

/-- A call for the document, made when `first` tasks had been started or later, has returned a text
that gives the context. -/
structure Grounds (w : Workspace) (first : Nat) (uri : Uri) (position : Position)
    (context : CompletionContext) (task : Nat) (document : Snapshot) : Prop where
  later : first ≤ task
  invoked : Event.invoked task (.snapshot uri) ∈ w.history
  returned : Event.returned task (.snapshot document) ∈ w.history
  context : completionContext document.content.toList position = some context

/-- How far a completion has come: it looks for its document, or has put its question. -/
inductive Pursued (first job : Nat) (uri : Uri) (position : Position) (q : Inquiry) : Prop
  | looking (hops : q.operations = []) (hsent : q.sent = [])
      (hjob : ∀ j, q.session.job? job = some j → j = .look uri position ∨
        ∃ task, first ≤ task ∧ j = .looking task position ∧
          Sought q.session.cache task uri q.tracked)
  | asking {operation task : Nat} {context : CompletionContext} {document : Snapshot}
      (hops : q.operations = [operation])
      (hposed : Posed q.session.client operation (questionFor context) q.sent)
      (hseen : q.tracked = true)
      (hgrounds : Grounds q.session.cache first uri position context task document)
      (hjob : ∀ j, q.session.job? job = some j → ∃ n c, j = .asking n c)

section Pursued

variable {s : Session} {q : Inquiry} {first job : Nat} {uri : Uri} {position : Position}
  {a : Action}

/-- What was told stays told. -/
theorem Regular.history (h : Regular s) (a : Action) {x : Document.Event}
    (hx : x ∈ s.cache.history) : x ∈ (s.step a).cache.history := by
  rcases (h.steady.followed a).step with hsame | ⟨b, hb⟩
  · rw [hsame]
    exact hx
  · obtain ⟨-, traded⟩ := h.discerned.stepped b
    rw [hb, traded.history]
    exact List.mem_append_right _ hx

theorem Regular.grounds (h : Regular s) (a : Action) {context : CompletionContext} {task : Nat}
    {document : Snapshot} (hg : Grounds s.cache first uri position context task document) :
    Grounds (s.step a).cache first uri position context task document :=
  ⟨hg.later, h.history a hg.invoked, h.history a hg.returned, hg.context⟩

theorem Regular.sought (h : Regular s) (a : Action) {task : Nat} {seen : Bool}
    (hs : Sought s.cache task uri seen) :
    Sought (s.step a).cache task uri (seen || (s.workspace.store.lookup uri).isSome) := by
  rcases (h.steady.followed a).step with hsame | ⟨b, hb⟩
  · rw [hsame]
    exact hs.mono _
  · rw [hb]
    exact hs.step h.discerned b

theorem Regular.posed (h : Regular s) (a : Action) {operation : Nat} {question : Question}
    {sent : List (Option Source × Url)} (hp : Posed s.client operation question sent) :
    Posed (s.step a).client operation question
      (sent ++ requestsOf [operation] s.client.installed
        (s.client.newRequests (s.step a).client)) := by
  have hclient := (h.steady.steered a).client
  cases he : s.event? a with
  | none =>
    rw [he] at hclient
    rw [hclient, Client.newRequests_of_same rfl]
    exact (List.append_nil sent).symm ▸ hp
  | some e =>
    rw [he] at hclient
    rw [hclient]
    exact hp.step h.numbers (s.client.served_step e)

theorem requestsOf_nil (installed : Option Source) (requests : List (Nat × Url)) :
    requestsOf [] installed requests = [] := by
  simp [requestsOf]

theorem consulted?_of_ne (s : Session) (ha : a ≠ .advance job) : s.consulted? job a = none := by
  cases a with
  | advance id =>
    rw [consulted?, if_neg]
    rintro rfl
    exact ha rfl
  | _ => rfl

/-- The step of the session is not one of the job, or does nothing about it. -/
theorem Pursued.aside (h : Pursued first job uri position q) (hr : Regular q.session)
    (hnone : q.session.consulted? job a = none)
    (hjob : (q.session.step a).job? job = q.session.job? job ∨
      (q.session.step a).job? job = none) :
    Pursued first job uri position (q.step job uri a) := by
  have hsame : ∀ j, (q.step job uri a).session.job? job = some j → q.session.job? job = some j := by
    intro j hj
    rcases hjob with hjob | hjob
    · exact hjob ▸ hj
    · exact absurd (hjob.symm.trans hj) (by simp)
  have hops : (q.step job uri a).operations = q.operations := by
    simp [Inquiry.step, hnone]
  cases h with
  | looking hno hsent hlook =>
    refine .looking (hops.trans hno) ?_ fun j hj => ?_
    · simp [Inquiry.step, hsent, hno, requestsOf_nil]
    · refine (hlook j (hsame j hj)).imp_right ?_
      rintro ⟨task, hfirst, rfl, hsought⟩
      exact ⟨task, hfirst, rfl, hr.sought a hsought⟩
  | asking hone hposed hseen hgrounds hask =>
    refine .asking (hops.trans hone) ?_ (by simp [Inquiry.step, hseen]) (hr.grounds a hgrounds)
      fun j hj => hask j (hsame j hj)
    simp only [Inquiry.step, hone]
    exact hr.posed a hposed

theorem mem_history_of_reply? {w : Workspace} {task : Nat} {reply : Reply}
    (h : w.reply? task = some reply) : Event.returned task reply ∈ w.history := by
  obtain ⟨x, hx, hmatch⟩ := List.exists_of_findSome?_eq_some h
  cases x with
  | returned id r =>
    simp only at hmatch
    split at hmatch
    · cases hmatch
      rename_i hid
      exact hid ▸ hx
    · cases hmatch
  | _ => cases hmatch

section Advance

variable {task : Nat}

theorem step_advance {j : Job} (hj : q.session.job? job = some j) :
    q.session.step (.advance job) = q.session.advanceJob job j := by
  simp only [Session.step, hj]

theorem consulted?_of_operationOf? {j : Job} (hj : q.session.job? job = some j)
    (hop : q.session.operationOf? j = none) : q.session.consulted? job (.advance job) = none := by
  simp [consulted?, hj, hop]

/-- The job calls for the document. -/
theorem Pursued.enter (hr : Regular q.session) (hfirst : first ≤ q.session.workspace.started)
    (hops : q.operations = []) (hsent : q.sent = [])
    (hj : q.session.job? job = some (.look uri position)) :
    Pursued first job uri position (q.step job uri (.advance job)) := by
  have hbecome : (q.session.step (.advance job)).job? job
      = some (.looking q.session.workspace.started position) := by
    rw [step_advance hj]
    refine (job?_become _ job _ job).trans ?_
    rw [if_pos rfl]
    exact congrArg (Option.map _) hj
  have hcache : (q.session.step (.advance job)).cache
      = q.session.cache.step (.invoke .answer (.snapshot uri)) := by
    rw [step_advance hj, cache, cache, Workspace.step_saying]
    rfl
  refine .looking ?_ ?_ fun j hj' => Or.inr ⟨_, hfirst, ?_, ?_⟩
  · simp [Inquiry.step, hops, consulted?_of_operationOf? hj rfl]
  · simp [Inquiry.step, hsent, hops, requestsOf_nil]
  · exact Option.some.inj (hj'.symm.trans hbecome)
  · simp only [Inquiry.step, hcache]
    exact sought_invoke q.session.cache uri _ hr.discerned.below hr.returned

/-- The job puts its question. -/
theorem Pursued.ask (hr : Regular q.session) (hfirst : first ≤ task) (hops : q.operations = [])
    (hsent : q.sent = [])
    (hj : q.session.job? job = some (.looking task position))
    (hsought : Sought q.session.cache task uri q.tracked) {document : Snapshot}
    (hreply : q.session.workspace.reply? task = some (.snapshot document))
    {context : CompletionContext}
    (hcontext : completionContext document.content.toList position = some context) :
    Pursued first job uri position (q.step job uri (.advance job)) := by
  have hreturned := mem_history_of_reply? hreply
  have hstep : q.session.step (.advance job)
      = q.session.consult job (.ask (questionFor context)) (.asking · context) := by
    rw [step_advance hj]
    simp only [advanceJob, hreply, look, hcontext]
  have hconsulted : q.session.consulted? job (.advance job) = some q.session.client.arrived := by
    simp [consulted?, hj, operationOf?, hreply, hcontext]
  have hposed : Posed (q.step job uri (.advance job)).session.client q.session.client.arrived
      (questionFor context) (q.step job uri (.advance job)).sent := by
    simp only [Inquiry.step, hsent, hops, requestsOf_nil, List.append_nil, hstep]
    exact Posed.arrive _ _
  refine .asking ?_ hposed ?_ (hr.grounds _ ⟨hfirst, hsought.invoked, hreturned, hcontext⟩)
    fun j hj' => ⟨q.session.client.arrived, context, ?_⟩
  · simp [Inquiry.step, hops, hconsulted]
  · simp [Inquiry.step, hsought.snapshots document hreturned]
  · refine Option.some.inj (hj'.symm.trans ?_)
    simp only [Inquiry.step, hstep]
    refine (job?_become _ job _ job).trans ?_
    rw [if_pos rfl]
    exact congrArg (Option.map _) hj

/-- A step of the job. -/
theorem Pursued.advance (h : Pursued first job uri position q) (hr : Regular q.session)
    (hlater : first ≤ q.session.workspace.started) :
    Pursued first job uri position (q.step job uri (.advance job)) := by
  have hover : ∀ {s' : Session}, s'.jobs = (q.session.finish job).jobs → s'.job? job = none := by
    intro s' hs'
    have hsame : s'.job? job = (q.session.finish job).job? job := by rw [job?, hs']; rfl
    rw [hsame, job?_finish, if_pos rfl]
  cases hj : q.session.job? job with
  | none =>
    refine h.aside hr (by simp [consulted?, hj]) (Or.inl ?_)
    simp only [Session.step, hj]
  | some j =>
    have haside : q.session.operationOf? j = none →
        ((q.session.advanceJob job j).job? job = q.session.job? job ∨
          (q.session.advanceJob job j).job? job = none) →
        Pursued first job uri position (q.step job uri (.advance job)) := fun hop hjob =>
      h.aside hr (consulted?_of_operationOf? hj hop) (by rw [step_advance hj]; exact hjob)
    cases h with
    | asking _ _ _ _ hask =>
      obtain ⟨n, c, rfl⟩ := hask j hj
      refine haside rfl ?_
      simp only [advanceJob]
      split
      · exact Or.inl rfl
      · unfold offer
        split <;> exact Or.inr (hover rfl)
    | looking hops hsent hlook =>
      rcases hlook j hj with rfl | ⟨task, hfirst, rfl, hsought⟩
      · exact Pursued.enter hr hlater hops hsent hj
      · cases hreply : q.session.workspace.reply? task with
        | none =>
          refine haside (by simp [operationOf?, hreply]) (Or.inl ?_)
          simp only [advanceJob, hreply]
        | some reply =>
          cases reply with
          | snapshot document =>
            cases hcontext : completionContext document.content.toList position with
            | some context => exact Pursued.ask hr hfirst hops hsent hj hsought hreply hcontext
            | none =>
              refine haside (by simp [operationOf?, hreply, hcontext]) (Or.inr ?_)
              simp only [advanceJob, hreply, look, hcontext]
              exact hover rfl
          | _ =>
            refine haside (by simp [operationOf?, hreply]) (Or.inr ?_)
            simp only [advanceJob, hreply, look]
            exact hover rfl

end Advance

/-- Whatever happens, the completion goes on or stays where it is. -/
theorem Pursued.step (h : Pursued first job uri position q) (hr : Regular q.session)
    (hlater : first ≤ q.session.workspace.started) (hn : job < q.session.numbered) (a : Action) :
    Pursued first job uri position (q.step job uri a) := by
  by_cases ha : a = .advance job
  · rw [ha]
    exact h.advance hr hlater
  · exact h.aside hr (consulted?_of_ne _ ha) (Or.inl (hr.steady.job?_step hn ha))

theorem Regular.started_le (h : Regular s) (a : Action) :
    s.workspace.started ≤ (s.step a).workspace.started := by
  show s.cache.started ≤ (s.step a).cache.started
  rcases (h.steady.followed a).step with hsame | ⟨b, hb⟩
  · exact Nat.le_of_eq (by rw [hsame])
  · obtain ⟨-, traded⟩ := h.discerned.stepped b
    rw [hb]
    exact traded.started

/-- Each request has a source that was installed, with a base that was read from a text. -/
theorem parsed_of_mem_requestsOf (hr : Regular s) {ids : List Nat} {requests : List (Nat × Url)}
    {x : Option Source × Url} (hx : x ∈ requestsOf ids s.client.installed requests)
    {source : Source} (hsource : x.1 = some source) :
    ∃ text, Base.parse text = .ok source.base := by
  obtain ⟨y, -, rfl⟩ := List.mem_map.1 hx
  exact hr.parsed hsource

/-- What is true of a completion along a run. -/
structure Pursuit (first job : Nat) (uri : Uri) (position : Position) (q : Inquiry) : Prop where
  regular : Regular q.session
  later : first ≤ q.session.workspace.started
  numbered : job < q.session.numbered
  pursued : Pursued first job uri position q
  parsed : ∀ x ∈ q.sent, ∀ source, x.1 = some source → ∃ text, Base.parse text = .ok source.base

theorem Pursuit.step (h : Pursuit first job uri position q) (a : Action) :
    Pursuit first job uri position (q.step job uri a) where
  regular := h.regular.step a
  later := Nat.le_trans h.later (h.regular.started_le a)
  numbered := Nat.lt_of_lt_of_le h.numbered (numbered_le_step _ a)
  pursued := h.pursued.step h.regular h.later h.numbered a
  parsed := by
    intro x hx source hsource
    rcases List.mem_append.1 hx with hold | hnew
    · exact h.parsed x hold source hsource
    · exact parsed_of_mem_requestsOf h.regular hnew hsource

theorem Pursuit.run (h : Pursuit first job uri position q) (actions : List Action) :
    Pursuit first job uri position (actions.foldl (Inquiry.step job uri) q) := by
  induction actions generalizing q with
  | nil => exact h
  | cons a as ih => exact ih (h.step a)

/-- A completion begins with the document, or is refused. -/
theorem Steady.complete (h : Steady s) (uri : Uri) (position : Position) :
    let s' := s.step (.receive (.complete uri position))
    s.numbered < s'.numbered ∧ ∀ j, s'.job? s.numbered = some j → j = .look uri position := by
  intro s'
  cases hactive : s.phase.ensureActive "textDocument/completion" with
  | error e =>
    have hs' : s' = s.refuse e := by simp only [s', Session.step, receive, hactive]
    rw [hs']
    refine ⟨Nat.lt_succ_self _, fun j hj => ?_⟩
    have hnone : s.job? s.numbered = none :=
      Numbered.item?_eq_none h.distinct.below (Nat.le_refl _)
    exact absurd (hnone.symm.trans hj) (by simp)
  | ok =>
    have hs' : s' = s.start (.look uri position) := by
      simp only [s', Session.step, receive, hactive]
    rw [hs']
    refine ⟨Nat.lt_succ_self _, fun j hj => ?_⟩
    rw [h.distinct.job?_start, if_pos rfl] at hj
    exact (Option.some.inj hj).symm

theorem Regular.complete (h : Regular s) (uri : Uri) (position : Position) :
    Pursuit s.workspace.started s.numbered uri position
      { session := s.step (.receive (.complete uri position)) } := by
  obtain ⟨hn, hjob⟩ := h.steady.complete uri position
  have hregular := h.step (.receive (.complete uri position))
  have hlater := h.started_le (.receive (.complete uri position))
  refine ⟨hregular, hlater, hn, .looking rfl rfl fun j hj => Or.inl (hjob j hj), fun x hx => ?_⟩
  exact absurd hx List.not_mem_nil

end Pursued

/-- Whatever the text of the document and the position are and whatever else goes on, a completion
makes one request at most. It makes none unless the document was tracked since the completion came,
the text that a call for it has returned since then gives a context, and a source is installed; and
then the URL is that of one of the permitted resources below the base of the source, and adds
nothing to it but words. -/
theorem completion_confined (defaultUrl : String) (settings : Prometheus.Settings)
    (before after : List Action) (uri : Uri) (position : Position) :
    let s := (fresh defaultUrl settings).run before
    let q := s.completion uri position after
    q.sent.length ≤ 1 ∧ ∀ x ∈ q.sent, q.tracked = true ∧
      ∃ source context task document, x.1 = some source ∧
        Grounds q.session.cache s.workspace.started uri position context task document ∧
        Permitted source.dialect ((questionFor context).resource source.dialect) ∧
        x.2 = ((questionFor context).resource source.dialect).url source.base ∧
        (source.base.url.scheme = "http" ∨ source.base.url.scheme = "https" →
          Confined source.base ((questionFor context).resource source.dialect) x.2) := by
  intro s q
  have hregular : Regular s := (regular_fresh defaultUrl settings).run before
  have hq := (hregular.complete uri position).run after
  have hparsed := hq.parsed
  cases hq.pursued with
  | looking _ hsent =>
    have hnone : q.sent = [] := hsent
    simp [hnone]
  | @asking operation task context document _ hposed hseen hgrounds =>
    rcases hposed.at_most_one with hnone | ⟨source, hone⟩
    · have hnone : q.sent = [] := hnone
      simp [hnone]
    · have hone : q.sent = [(some source, source.endpointOf (questionFor context))] := hone
      have hpermitted := permitted_of_isNamed (completionContext_isNamed hgrounds.context)
        source.dialect
      rw [hone]
      refine ⟨Nat.le_refl _, fun x hx => ?_⟩
      rw [List.mem_singleton.1 hx]
      refine ⟨hseen, source, context, task, document, rfl, hgrounds, hpermitted, rfl, ?_⟩
      intro hscheme
      obtain ⟨text, hparse⟩ := hparsed _ (hone ▸ List.mem_singleton_self _) source rfl
      exact hpermitted.confined hparse hscheme

/-- A backend is installed, and a document is opened with a text that would be a path. -/
def misleading : List Action :=
  [.receive (.handshake (some (naming "http://a/b"))), .advance 1, .advance 1, .advance 2,
    .backend .serve, found, .receive (.opened ⟨"u"⟩ "up\x7b/../x?y&job=\"" 1), .advance 3,
    .document (.advance 0)]

/-- A completion finds the document and puts its question, which is sent. -/
def lookedUp : List Action :=
  [.advance 4, .document (.advance 2), .document (.advance 2), .document (.advance 2), .advance 4,
    .backend .serve]

/-- All of the text that gets into the URL is the name of the label. -/
theorem completion_confined_misleading :
    ∃ x ∈ (((fresh "" {}).run misleading).completion ⟨"u"⟩ ⟨0, 16⟩ lookedUp).sent,
      x.2.path = "/b/api/v1/label/job/values".toList ∧
      ∃ source resource, x.1 = some source ∧ Permitted source.dialect resource ∧
        Confined source.base resource x.2 := by
  have hsent : ((((fresh "" {}).run misleading).completion ⟨"u"⟩ ⟨0, 16⟩ lookedUp).sent.map
      fun x => (x.1.map fun source => source.base.url.scheme, x.2.path))
        = [(some "http", "/b/api/v1/label/job/values".toList)] := by decide +kernel
  obtain ⟨x, hone, hx⟩ := List.map_eq_singleton_iff.1 hsent
  have hmem := hone ▸ List.mem_singleton_self x
  obtain ⟨-, source, context, task, document, hsource, -, hpermitted, -, hconfined⟩ :=
    (completion_confined "" {} misleading lookedUp ⟨"u"⟩ ⟨0, 16⟩).2 x hmem
  obtain ⟨hscheme, hpath⟩ := Prod.mk.inj hx
  rw [hsource] at hscheme
  exact ⟨x, hmem, hpath, source, _, hsource, hpermitted,
    hconfined (Or.inl (Option.some.inj hscheme))⟩

end PromqlServer.Session
