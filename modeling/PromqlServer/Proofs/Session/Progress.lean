import PromqlServer.Proofs.Document.Ledger
import PromqlServer.Proofs.Numbered
import PromqlServer.Proofs.Prometheus.Progress
import PromqlServer.Session.Basic

/-!
A session between two messages. The jobs of its handlers, the tasks of its workspace and its client
go on in any order until nothing is left to do. At most one request is made of the document cache in
the meantime, so what the session owes, the notices that it still has to send, is fixed from the
start: `Owes.step` says that each step pays a part of it, and leaves less to do.
-/

namespace PromqlServer.Session

open PromqlServer.Document PromqlServer.Prometheus

/-- The lexical check and a network. -/
def around (network : Network) : Surroundings := { network }

/-- Something that a job or a task can do now. -/
inductive Enabled (s : Session) (env : Surroundings) : Action → Prop
  | job {id : Nat} {job : Job} {a : Action} (hm : (id, job) ∈ s.jobs)
      (ha : s.nextOfJob? env id job = some a) : Enabled s env a
  | task {id : Nat} {a : Action} (ha : s.nextOfTask? env id = some a) : Enabled s env a

/-- One job or task goes on by one step. -/
def Successor (env : Surroundings) (s' s : Session) : Prop := ∃ a, Enabled s env a ∧ s' = s.step a

/-- Jobs and tasks go on, in any order. -/
inductive Works (env : Surroundings) : Session → Session → Prop
  | refl (s : Session) : Works env s s
  | step {s s' : Session} {a : Action} (ha : Enabled s env a) (h : Works env (s.step a) s') :
      Works env s s'

section Rest

variable {s : Session} {env : Surroundings}

/-- The next step of the jobs that `p` picks. -/
def nextAmong? (s : Session) (env : Surroundings) (p : Nat × Job → Bool) : Option Action :=
  (s.jobs.filter p).findSome? fun x => s.nextOfJob? env x.1 x.2

theorem next?_eq (s : Session) (env : Surroundings) :
    s.next? env = (s.nextAmong? env fun x => !x.2.isBackground).or
      ((s.nextAmong? env fun x => x.2.isBackground).or
        ((s.workspace.movable? env.documents).bind (s.nextOfTask? env))) := by
  rw [Option.or_eq_orElse, Option.or_eq_orElse]
  rfl

theorem enabled_of_next? {a : Action} (h : s.next? env = some a) : Enabled s env a := by
  have hjobs : ∀ {p : Nat × Job → Bool}, s.nextAmong? env p = some a → Enabled s env a := by
    intro p hp
    obtain ⟨x, hx, ha⟩ := List.exists_of_findSome?_eq_some hp
    exact .job (List.mem_filter.1 hx).1 ha
  rw [next?_eq, Option.or_eq_some_iff, Option.or_eq_some_iff] at h
  rcases h with h | ⟨_, h | ⟨_, h⟩⟩
  · exact hjobs h
  · exact hjobs h
  · obtain ⟨id, _, ha⟩ := Option.bind_eq_some_iff.1 h
    exact .task ha

/-- Nothing can be done when no next step is found. -/
theorem rest_of_next? (h : s.next? env = none) :
    (∀ id job, (id, job) ∈ s.jobs → s.nextOfJob? env id job = none) ∧
      s.workspace.movable? env.documents = none := by
  rw [next?_eq, Option.or_eq_none_iff, Option.or_eq_none_iff] at h
  obtain ⟨hfore, hback, htask⟩ := h
  refine ⟨fun id job hm => ?_, ?_⟩
  · cases hb : job.isBackground with
    | true => exact List.findSome?_eq_none_iff.1 hback (id, job) (List.mem_filter.2 ⟨hm, hb⟩)
    | false =>
      exact List.findSome?_eq_none_iff.1 hfore (id, job) (List.mem_filter.2 ⟨hm, by simp [hb]⟩)
  · cases hmove : s.workspace.movable? env.documents with
    | none => rfl
    | some id =>
      have hid := List.find?_some hmove
      rw [hmove] at htask
      have hnone : s.workspace.nextOf? env.documents id = none := Option.map_eq_none_iff.1 htask
      rw [hnone] at hid
      cases hid

end Rest

/-! ## What is left to do -/

/-- The request that a job has still to make of the workspace. The watch makes one when the lifetime
has ended. -/
def Job.request? (ended : Bool) : Job → Option (Purpose × Document.Request)
  | .farewell | .close => some (.clear, .shutdown)
  | .enter purpose request => some (purpose, request)
  | .look uri _ => some (.answer, .snapshot uri)
  | .watch => if ended then some (.clear, .shutdown) else none
  | _ => none

def Job.isWatch : Job → Bool
  | .watch => true
  | _ => false

theorem Job.ended_of_isWatch {ended : Bool} {job : Job} {x : Purpose × Document.Request}
    (hr : job.request? ended = some x) (hwatch : job.isWatch = true) : ended = true := by
  cases job with
  | watch =>
    cases ended with
    | true => rfl
    | false => cases hr
  | _ => cases hwatch

/-- An upper bound of the steps of a job, with the events of the client that it brings about. -/
def Job.weight : Job → Nat
  | .greet _ => 6
  | .welcome _ => 5
  | .switch _ => 4
  | .look _ _ => 5
  | .looking _ _ => 4
  | .farewell => 3
  | .close | .enter _ _ | .watch => 2
  | .confirm | .closing _ | .handling _ | .draining _ | .asking _ _ | .switching _ _ => 1

/-- The lifetime of the session has ended. -/
def ended (s : Session) : Bool := s.workspace.store.isCancelled lifetime

/-- The jobs under way, without their numbers. -/
def kinds (s : Session) : List Job := s.jobs.map Prod.snd

def requests (s : Session) : List (Purpose × Document.Request) :=
  s.kinds.filterMap (Job.request? s.ended)

def watchers (s : Session) : Nat := s.kinds.countP Job.isWatch

def load (s : Session) : Nat := Numbered.total Job.weight s.kinds + s.client.load

def Outgoing.notice? : Outgoing → Option Notice
  | .diagnostics n => some n
  | _ => none

/-- The notices among what was sent. -/
def notices (s : Session) : List Notice := s.outbox.filterMap Outgoing.notice?

/-- Jobs have numbers of their own. -/
structure Distinct (jobs : List (Nat × Job)) (numbered : Nat) : Prop where
  nodup : (jobs.map Prod.fst).Nodup
  below : ∀ x ∈ jobs, x.1 < numbered

/-- One job of a session gives way to others. -/
structure Trades (s : Session) (job : Job) (others : List Job) (jobs : List (Nat × Job))
    (numbered : Nat) : Prop where
  distinct : Distinct jobs numbered
  kinds : ∃ rest, s.kinds.Perm (job :: rest) ∧ (jobs.map Prod.snd).Perm (others ++ rest)

section Trades

variable {s : Session} {id : Nat} {job : Job}

theorem Distinct.become (h : Distinct s.jobs s.numbered) (hm : (id, job) ∈ s.jobs) (other : Job) :
    Trades s job [other] (s.become id other).jobs s.numbered := by
  have hdistinct := Numbered.Distinct.replace ⟨h.nodup, h.below⟩ id other
  obtain ⟨rest, hold, hnew, _⟩ := Numbered.perm_of_mem h.nodup hm
  exact ⟨⟨hdistinct.nodup, hdistinct.below⟩, rest.map Prod.snd, hold.map Prod.snd,
    (hnew other).map Prod.snd⟩

theorem Distinct.finish (h : Distinct s.jobs s.numbered) (hm : (id, job) ∈ s.jobs) :
    Trades s job [] (s.finish id).jobs s.numbered := by
  have hdistinct := Numbered.Distinct.erase ⟨h.nodup, h.below⟩ id
  obtain ⟨rest, hold, _, hrest⟩ := Numbered.perm_of_mem h.nodup hm
  exact ⟨⟨hdistinct.nodup, hdistinct.below⟩, rest.map Prod.snd, hold.map Prod.snd,
    hrest.map Prod.snd⟩

theorem Distinct.start (h : Distinct s.jobs s.numbered) (other : Job) :
    Distinct (s.start other).jobs (s.numbered + 1) := by
  have hdistinct := Numbered.Distinct.concat ⟨h.nodup, h.below⟩ other
  exact ⟨hdistinct.nodup, hdistinct.below⟩

/-- The job starts another one and is over. -/
theorem Distinct.pass (h : Distinct s.jobs s.numbered) (hm : (id, job) ∈ s.jobs) (other : Job) :
    Trades s job [other] ((s.start other).finish id).jobs (s.numbered + 1) := by
  have hstart := h.start other
  obtain ⟨hdistinct, rest', hold, hnew⟩ := Distinct.finish (s := s.start other) hstart
    (List.mem_append_left _ hm)
  obtain ⟨_, rest, hkinds, _⟩ := h.finish hm
  refine ⟨hdistinct, rest, hkinds, hnew.trans ?_⟩
  have hall : (s.start other).kinds.Perm (job :: (rest ++ [other])) := by
    simp only [Session.start, Session.kinds, List.map_append]
    exact hkinds.append_right _
  exact (hold.symm.trans hall).cons_inv.trans (List.perm_append_singleton other rest)

end Trades

@[simp] theorem notices_log (s : Session) (level : LogLevel) (text : String) :
    (s.send (.log level text)).notices = s.notices := by
  simp [send, notices, Outgoing.notice?]

@[simp] theorem notices_answer (s : Session) (id : Nat) (r : Response) :
    (s.answer id r).notices = s.notices := by
  simp [answer, send, notices, finish, Outgoing.notice?]

/-- Notices of the workspace go to the client as they are. -/
theorem filterMap_notice? (ns : List Notice) :
    (ns.map Outgoing.diagnostics).filterMap Outgoing.notice? = ns := by
  induction ns with
  | nil => rfl
  | cons n ns ih =>
    have hn : Outgoing.notice? (.diagnostics n) = some n := rfl
    rw [List.map_cons, List.filterMap_cons_some hn, ih]

/-- What a job can do in one step: something beside the workspace, or the one request that it makes
of it. -/
inductive Advanced (s : Session) (job : Job) (s' : Session) : Prop
  | aside (others : List Job) (ht : Trades s job others s'.jobs s'.numbered)
      (hw : s'.workspace = s.workspace) (hp : s'.phase = s.phase) (hn : s'.notices = s.notices)
      (hc : s.client.Sane → s'.client.Sane)
      (hrequest : ∀ ended, others.filterMap (Job.request? ended) = (job.request? ended).toList)
      (hwatch : job.isWatch = false ∧ others.countP Job.isWatch = 0)
      (hload : Numbered.total Job.weight others + s'.client.load < job.weight + s.client.load)
  | entered (purpose : Purpose) (request : Document.Request) (other : Job)
      (hr : job.request? s.ended = some (purpose, request))
      (ht : Trades s job [other] s'.jobs s'.numbered)
      (hw : s'.workspace = s.workspace.invoke purpose request)
      (hp : s'.phase = if job.isWatch then .shutDown else s.phase) (hn : s'.notices = s.notices)
      (hc : s'.client = s.client) (hrequest : ∀ ended, other.request? ended = none)
      (hwatch : other.isWatch = false) (hload : other.weight < job.weight)

/-- The job does not have to wait. -/
def Ready (s : Session) : Job → Prop
  | .closing task | .handling task | .draining task => s.workspace.isPending task = false
  | .looking task _ => (s.workspace.reply? task).isSome
  | .asking operation _ | .switching operation _ => (s.client.result? operation).isSome
  | .watch => s.ended = true
  | _ => True

section Jobs

variable {s : Session} {id : Nat} {job : Job}

theorem Job.weight_pos (job : Job) : 0 < job.weight := by
  cases job <;> simp [Job.weight]

/-- The job is over. -/
theorem Advanced.finished (h : Distinct s.jobs s.numbered) (hm : (id, job) ∈ s.jobs) {s' : Session}
    (hs' : s' = { s.finish id with outbox := s'.outbox }) (hn : s'.notices = s.notices)
    (hrequest : ∀ ended, job.request? ended = none) (hwatch : job.isWatch = false) :
    Advanced s job s' := by
  have hclient : s'.client = s.client := by rw [hs']; rfl
  refine .aside [] ?_ (by rw [hs']; rfl) (by rw [hs']; rfl) hn (fun hs => by rw [hclient]; exact hs)
    (fun e => ?_) ⟨hwatch, rfl⟩ ?_
  · rw [hs']
    exact h.finish hm
  · rw [hrequest e]
    rfl
  · rw [hclient]
    simpa using job.weight_pos

/-- The job asks the client of the backend. -/
theorem Advanced.consulted (h : Distinct s.jobs s.numbered) (hm : (id, job) ∈ s.jobs)
    (operation : Operation) (wait : Nat → Job) (hrequest : ∀ ended, job.request? ended = none)
    (hwatch : job.isWatch = false) (hwait : ∀ n ended, (wait n).request? ended = none)
    (hidle : ∀ n, (wait n).isWatch = false) (hload : ∀ n, (wait n).weight + 2 < job.weight) :
    Advanced s job (s.consult id operation wait) := by
  refine .aside [wait s.client.arrived] (h.become hm _) rfl rfl rfl
    (fun hs => hs.arrive operation) (fun e => ?_) ⟨hwatch, ?_⟩ ?_
  · rw [hrequest e]
    simp [hwait]
  · simp [hidle]
  · have hclient : (s.consult id operation wait).client = s.client.step (.arrive operation) := rfl
    have := hload s.client.arrived
    rw [hclient, Client.load_arrive]
    simp only [Numbered.total_cons, Numbered.total_nil]
    omega

/-- The job makes its request of the workspace. -/
theorem Advanced.asked (h : Distinct s.jobs s.numbered) (hm : (id, job) ∈ s.jobs)
    {purpose : Purpose} {request : Document.Request} (wait : Nat → Job)
    (hr : job.request? s.ended = some (purpose, request)) (hwatch : job.isWatch = false)
    (hwait : ∀ n ended, (wait n).request? ended = none) (hidle : ∀ n, (wait n).isWatch = false)
    (hload : ∀ n, (wait n).weight < job.weight) :
    Advanced s job (s.enter id purpose request wait) :=
  .entered purpose request (wait s.workspace.started) hr (h.become hm _) rfl
    (by rw [hwatch]; rfl) rfl rfl (hwait _) (hidle _) (hload _)

theorem advanceJob_cases (h : Distinct s.jobs s.numbered) (hm : (id, job) ∈ s.jobs)
    (hready : s.Ready job) : Advanced s job (s.advanceJob id job) := by
  have hdone : ∀ task, s.workspace.isPending task = false → ¬ s.workspace.isPending task = true :=
    fun task hpending => by simp [hpending]
  cases job with
  | greet options =>
    exact .aside [.welcome options] (h.become hm _) rfl rfl (notices_log ..) (fun hs => hs)
      (fun _ => rfl) ⟨rfl, rfl⟩ (by simp [advanceJob, become, send, Job.weight])
  | welcome options =>
    simp only [advanceJob, welcome]
    split
    · exact .finished h hm rfl (notices_answer ..) (fun _ => rfl) rfl
    · exact .aside [.switch _] (h.pass hm _) rfl rfl (notices_answer ..) (fun hs => hs)
        (fun _ => rfl) ⟨rfl, rfl⟩
        (by simp [answer, send, Session.finish, Session.start, Job.weight])
  | confirm => exact .finished h hm rfl (notices_log ..) (fun _ => rfl) rfl
  | farewell =>
    exact .aside [.close] (h.become hm _) rfl rfl (notices_log ..) (fun hs => hs) (fun _ => rfl)
      ⟨rfl, rfl⟩ (by simp [advanceJob, become, send, Job.weight])
  | close =>
    exact .asked h hm .closing rfl rfl (fun _ _ => rfl) (fun _ => rfl) (by simp [Job.weight])
  | closing task =>
    rw [advanceJob, if_neg (hdone task hready)]
    exact .finished h hm rfl (notices_answer ..) (fun _ => rfl) rfl
  | enter purpose request =>
    exact .asked h hm .handling rfl rfl (fun _ _ => rfl) (fun _ => rfl) (by simp [Job.weight])
  | handling task =>
    rw [advanceJob, if_neg (hdone task hready)]
    exact .finished h hm rfl rfl (fun _ => rfl) rfl
  | look uri position =>
    exact .asked h hm (.looking · position) rfl rfl (fun _ _ => rfl) (fun _ => rfl)
      (by simp [Job.weight])
  | looking task position =>
    obtain ⟨reply, hreply⟩ := Option.isSome_iff_exists.1 hready
    simp only [advanceJob, hreply]
    unfold look
    split
    · split
      · exact .finished h hm rfl (notices_answer ..) (fun _ => rfl) rfl
      · exact .consulted h hm _ _ (fun _ => rfl) rfl (fun _ _ => rfl) (fun _ => rfl)
          (by simp [Job.weight])
    · exact .finished h hm rfl (notices_answer ..) (fun _ => rfl) rfl
  | asking operation context =>
    obtain ⟨result, hresult⟩ := Option.isSome_iff_exists.1 hready
    simp only [advanceJob, hresult]
    unfold offer
    split <;> exact .finished h hm rfl (notices_answer ..) (fun _ => rfl) rfl
  | switch url =>
    exact .consulted h hm (.switch url) (.switching · url) (fun _ => rfl) rfl (fun _ _ => rfl)
      (fun _ => rfl) (by simp [Job.weight])
  | switching operation url =>
    obtain ⟨result, hresult⟩ := Option.isSome_iff_exists.1 hready
    simp only [advanceJob, hresult]
    unfold report
    split
    · exact .finished h hm rfl (notices_log ..) (fun _ => rfl) rfl
    · exact .finished h hm rfl rfl (fun _ => rfl) rfl
  | watch =>
    have hended : s.ended = true := hready
    have hstep : s.advanceJob id .watch
        = { s with phase := .shutDown }.enter id .clear .shutdown .draining := if_pos hready
    rw [hstep]
    exact .entered .clear .shutdown (.draining s.workspace.started)
      (by simp [Job.request?, hended]) (h.become hm _) rfl rfl rfl rfl (fun _ => rfl) rfl
      (by simp [Job.weight])
  | draining task =>
    rw [advanceJob, if_neg (hdone task hready)]
    exact .finished h hm rfl rfl (fun _ => rfl) rfl

/-- What can be done is a step of a job that does not have to wait, of a task, or of the client. -/
theorem Enabled.cases {env : Surroundings} {a : Action} (h : Enabled s env a) :
    (∃ id job, (id, job) ∈ s.jobs ∧ s.Ready job ∧ a = .advance id) ∨
    (∃ id b, s.workspace.nextOf? env.documents id = some b ∧ a = .document b) ∨
    ∃ e, s.client.next? env.network = some e ∧ a = .backend e := by
  have htask : ∀ {id}, s.nextOfTask? env id = some a →
      ∃ id b, s.workspace.nextOf? env.documents id = some b ∧ a = .document b := by
    intro id ha
    obtain ⟨b, hb, rfl⟩ := Option.map_eq_some_iff.1 ha
    exact ⟨id, b, hb, rfl⟩
  cases h with
  | task ha => exact Or.inr (Or.inl (htask ha))
  | @job id job _ hm ha =>
    have hself : s.Ready job → some (.advance id) = some a →
        ∃ id job, (id, job) ∈ s.jobs ∧ s.Ready job ∧ a = .advance id :=
      fun hready heq => ⟨id, job, hm, hready, (Option.some.inj heq).symm⟩
    cases job with
    | closing task | handling task | draining task =>
      simp only [nextOfJob?] at ha
      split at ha
      · exact Or.inr (Or.inl (htask ha))
      · rename_i hpending
        rw [Bool.not_eq_true] at hpending
        exact Or.inl (hself hpending ha)
    | looking task position =>
      simp only [nextOfJob?] at ha
      split at ha
      · rename_i hreply
        exact Or.inl (hself hreply ha)
      · exact Or.inr (Or.inl (htask ha))
    | asking operation _ | switching operation _ =>
      simp only [nextOfJob?] at ha
      split at ha
      · rename_i hresult
        exact Or.inl (hself hresult ha)
      · obtain ⟨e, he, rfl⟩ := Option.map_eq_some_iff.1 ha
        exact Or.inr (Or.inr ⟨e, he, rfl⟩)
    | watch =>
      simp only [nextOfJob?] at ha
      split at ha
      · rename_i hended
        exact Or.inl (hself hended ha)
      · cases ha
    | _ => exact Or.inl (hself trivial ha)

end Jobs

/-! ## What a session owes -/

/-- Where a session is in its life. Messages about documents count while it is active. -/
inductive Period where
  | created
  | active
  | past
  deriving DecidableEq, Repr

def Phase.period : Phase → Period
  | .created => .created
  | .initializing | .initialized => .active
  | .shutDown => .past

/-- What a client can know of a session. -/
structure Standing where
  period : Period := .created
  ledger : Ledger := {}
  deriving DecidableEq, Repr

/-- The workspace comes to rest when the requests are made that are still to be made. There is one
at most, and nothing is under way before it is made. -/
inductive Pends : List (Purpose × Document.Request) → Workspace → Nat → Store → List Notice → Prop
  | working {w : Workspace} {n : Nat} {s : Store} {ns : List Notice} (h : Workspace.Ends n w s ns) :
      Pends [] w n s ns
  | asking {w : Workspace} {n : Nat} {s : Store} {ns : List Notice} {purpose : Purpose}
      {request : Document.Request} (hidle : w.tasks = [])
      (h : Workspace.Ends n (w.invoke purpose request) s ns) : Pends [(purpose, request)] w n s ns

/-- What holds of a session at all times. -/
structure Sound (s : Session) : Prop where
  distinct : Distinct s.jobs s.numbered
  outbox : s.workspace.outbox = []
  lifetime : s.workspace.store.lifetime = [0]
  client : s.client.Sane
  watched : s.ended = false → s.watchers = 1

/-- The session has `n` steps of its workspace before it, in which it sends the notices `ns`, and
stands at `r` then. -/
structure Owes (s : Session) (n : Nat) (r : Standing) (ns : List Notice) : Prop where
  sound : Sound s
  pends : ∃ store, Pends s.requests s.workspace n store ns ∧ store.Orderly ∧
    Workspace.ledger store = r.ledger ∧
    (r.period ≠ .past → store.isCancelled store.lifetime = false)
  past : s.ended = true → r.period = .past ∧ r.ledger = {}
  phase : s.phase.period = r.period ∨ s.ended = true ∧ 0 < s.watchers

section Owes

variable {s : Session} {n : Nat} {r : Standing} {ns : List Notice}

theorem Pends.perm {rs rs' : List (Purpose × Document.Request)} {w : Workspace} {store : Store}
    (h : Pends rs w n store ns) (hp : rs'.Perm rs) : Pends rs' w n store ns := by
  cases h with
  | working h =>
    rw [hp.eq_nil]
    exact .working h
  | asking hidle h =>
    rw [List.perm_singleton.1 hp]
    exact .asking hidle h

/-- A job does something beside the workspace. -/
theorem Owes.aside (h : Owes s n r ns) {s' : Session} {job : Job} {others : List Job}
    (ht : Trades s job others s'.jobs s'.numbered) (hw : s'.workspace = s.workspace)
    (hp : s'.phase = s.phase) (hc : s'.client.Sane)
    (hrequest : ∀ ended, others.filterMap (Job.request? ended) = (job.request? ended).toList)
    (hwatch : job.isWatch = false ∧ others.countP Job.isWatch = 0) : Owes s' n r ns := by
  obtain ⟨rest, hold, hnew⟩ := ht.kinds
  have hended : s'.ended = s.ended := by rw [ended, ended, hw]
  have hrequests : s'.requests.Perm s.requests := by
    have hnew' := hnew.filterMap (Job.request? s.ended)
    have hold' := hold.filterMap (Job.request? s.ended)
    rw [List.filterMap_append, hrequest] at hnew'
    rw [requests, requests, hended]
    refine hnew'.trans (List.Perm.trans ?_ hold'.symm)
    cases hj : job.request? s.ended <;> simp [hj]
  have hwatchers : s'.watchers = s.watchers := by
    have hnew' := hnew.countP_eq Job.isWatch
    have hold' := hold.countP_eq Job.isWatch
    rw [List.countP_append, hwatch.2, Nat.zero_add] at hnew'
    rw [List.countP_cons_of_neg (by simp [hwatch.1])] at hold'
    exact hnew'.trans hold'.symm
  obtain ⟨store, hpends, hstore⟩ := h.pends
  refine ⟨⟨ht.distinct, ?_, ?_, hc, ?_⟩, ⟨store, ?_, hstore⟩, ?_, ?_⟩
  · rw [hw]; exact h.sound.outbox
  · rw [hw]; exact h.sound.lifetime
  · rw [hended, hwatchers]; exact h.sound.watched
  · rw [hw]; exact hpends.perm hrequests
  · rw [hended]; exact h.past
  · rw [hended, hwatchers, hp]; exact h.phase

/-- A job makes the request that is to be made. -/
theorem Owes.entered (h : Owes s n r ns) {s' : Session} {job other : Job} {purpose : Purpose}
    {request : Document.Request} (hr : job.request? s.ended = some (purpose, request))
    (ht : Trades s job [other] s'.jobs s'.numbered)
    (hw : s'.workspace = s.workspace.invoke purpose request)
    (hp : s'.phase = if job.isWatch then .shutDown else s.phase) (hc : s'.client = s.client)
    (hrequest : ∀ ended, other.request? ended = none) (hwatch : other.isWatch = false) :
    Owes s' n r ns := by
  obtain ⟨rest, hold, hnew⟩ := ht.kinds
  have hended : s'.ended = s.ended := by rw [ended, ended, hw]; rfl
  obtain ⟨store, hpends, hstore⟩ := h.pends
  have hold' := hold.filterMap (Job.request? s.ended)
  rw [List.filterMap_cons_some hr] at hold'
  have hnew' := hnew.filterMap (Job.request? s.ended)
  rw [List.singleton_append, List.filterMap_cons_none (hrequest _)] at hnew'
  have hends : s'.requests = [] ∧ Workspace.Ends n s'.workspace store ns := by
    have hall : s.requests.Perm
        ((purpose, request) :: rest.filterMap (Job.request? s.ended)) := hold'
    generalize s.requests = rs at hall hpends
    cases hpends with
    | working _ => exact absurd hall.symm.eq_nil (by simp)
    | asking _ hends =>
      have heq := List.perm_singleton.1 hall.symm
      rw [List.cons.injEq] at heq
      rw [heq.2] at hnew'
      cases heq.1
      refine ⟨?_, by rw [hw]; exact hends⟩
      rw [requests, hended]
      exact hnew'.eq_nil
  have hnewWatch := hnew.countP_eq Job.isWatch
  rw [List.singleton_append, List.countP_cons_of_neg (by simp [hwatch])] at hnewWatch
  have holdWatch := hold.countP_eq Job.isWatch
  -- a watch makes its request only when the lifetime has ended
  have hwatchers : job.isWatch = false → s'.watchers = s.watchers := by
    intro hjob
    rw [List.countP_cons_of_neg (by simp [hjob])] at holdWatch
    exact hnewWatch.trans holdWatch.symm
  have hover := fun hjob => Job.ended_of_isWatch hr hjob
  refine ⟨⟨ht.distinct, ?_, ?_, by rw [hc]; exact h.sound.client, ?_⟩, ⟨store, ?_, hstore⟩, ?_, ?_⟩
  · rw [hw]; exact h.sound.outbox
  · rw [hw]; exact h.sound.lifetime
  · intro hnot
    rw [hended] at hnot
    cases hjob : job.isWatch with
    | true =>
      rw [hover hjob] at hnot
      cases hnot
    | false => rw [hwatchers hjob, h.sound.watched hnot]
  · rw [hends.1]
    exact .working hends.2
  · rw [hended]; exact h.past
  · rw [hended, hp]
    cases hjob : job.isWatch with
    | true => exact Or.inl (h.past (hover hjob)).1.symm
    | false =>
      rw [hwatchers hjob]
      exact h.phase

/-- A task goes on. -/
theorem Owes.document (h : Owes s n r ns) {env : Workspace.Surroundings} (henv : env = {})
    {id : Nat} {b : Document.Action} (hb : s.workspace.nextOf? env id = some b) :
    ∃ m ns', n = m + 1 ∧ ns = (s.workspace.step b).outbox ++ ns' ∧
      Owes (s.step (.document b)) m r ns' := by
  subst henv
  obtain ⟨store, hpends, hstore⟩ := h.pends
  have hlifetime := h.sound.lifetime
  have habove : ¬ s.workspace.store.lifetime <+: lifetime := by
    rw [hlifetime]
    simp [lifetime]
  obtain ⟨hsame, hroot⟩ := Workspace.step_above hb habove
  have hended : (s.step (.document b)).ended = s.ended := hroot
  have hrequests : (s.step (.document b)).requests = s.requests := by
    rw [requests, requests, hended]
    rfl
  have hwatchers : (s.step (.document b)).watchers = s.watchers := rfl
  obtain ⟨m, ns', hn, hns, hnext⟩ : ∃ m ns', n = m + 1 ∧ ns = (s.workspace.step b).outbox ++ ns' ∧
      Pends s.requests (s.step (.document b)).workspace m store ns' := by
    generalize s.requests = rs at hpends
    cases hpends with
    | working hends =>
      obtain ⟨m, ns', hn, hns, hrest⟩ := hends.next hb
      exact ⟨m, ns', hn, hns, .working hrest⟩
    | asking hidle _ =>
      rw [Workspace.nextOf?_of_idle {} id hidle] at hb
      cases hb
  refine ⟨m, ns', hn, hns, ⟨h.sound.distinct, rfl, hsame.trans hlifetime, h.sound.client, ?_⟩,
    ⟨store, ?_, hstore⟩, ?_, ?_⟩
  · rw [hended, hwatchers]; exact h.sound.watched
  · rw [hrequests]; exact hnext
  · rw [hended]; exact h.past
  · rw [hended, hwatchers]; exact h.phase

/-- The weights of the jobs after one has given way to others. -/
theorem Trades.weights {s' : Session} {job : Job} {others : List Job}
    (h : Trades s job others s'.jobs s'.numbered) :
    Numbered.total Job.weight s'.kinds + job.weight
      = Numbered.total Job.weight s.kinds + Numbered.total Job.weight others := by
  obtain ⟨rest, hold, hnew⟩ := h.kinds
  have hold' := Numbered.total_perm Job.weight hold
  have hnew' : Numbered.total Job.weight s'.kinds = Numbered.total Job.weight (others ++ rest) :=
    Numbered.total_perm Job.weight hnew
  rw [Numbered.total_cons] at hold'
  rw [Numbered.total_append] at hnew'
  omega

/-- Whatever is done pays a part of what the session owes, and leaves less to do. -/
theorem Owes.step (h : Owes s n r ns) {network : Network} {a : Action}
    (ha : Enabled s (around network) a) : ∃ m ns', Owes (s.step a) m r ns' ∧
      s.notices ++ ns = (s.step a).notices ++ ns' ∧ (s.step a).load + m < s.load + n := by
  rcases ha.cases with ⟨id, job, hm, hready, rfl⟩ | ⟨id, b, hb, rfl⟩ | ⟨e, he, rfl⟩
  · have hstep : s.step (.advance id) = s.advanceJob id job := by
      have hjob : s.job? id = some job := (Numbered.split_of_mem h.sound.distinct.nodup hm).1
      simp only [Session.step, hjob]
    rw [hstep]
    cases advanceJob_cases h.sound.distinct hm hready with
    | aside others ht hw hp hn hc hrequest hwatch hload =>
      have hweights := ht.weights
      refine ⟨n, ns, h.aside ht hw hp (hc h.sound.client) hrequest hwatch, by rw [hn], ?_⟩
      simp only [load]
      omega
    | entered purpose request other hr ht hw hp hn hc hrequest hwatch hload =>
      have hweights := ht.weights
      refine ⟨n, ns, h.entered hr ht hw hp hc hrequest hwatch, by rw [hn], ?_⟩
      simp only [Numbered.total_cons, Numbered.total_nil] at hweights
      simp only [load, hc]
      omega
  · obtain ⟨m, ns', rfl, rfl, howes⟩ := h.document rfl hb
    refine ⟨m, ns', howes, ?_, Nat.lt_succ_self _⟩
    have hsent : (s.step (.document b)).outbox
        = s.outbox ++ (s.workspace.step b).outbox.map .diagnostics := rfl
    rw [notices, notices, hsent, List.filterMap_append, filterMap_notice?, List.append_assoc]
  · obtain ⟨hsane, hload⟩ := h.sound.client.step he
    refine ⟨n, ns, ⟨⟨h.sound.distinct, h.sound.outbox, h.sound.lifetime, hsane, h.sound.watched⟩,
      h.pends, h.past, h.phase⟩, rfl, ?_⟩
    have hless : (s.step (.backend e)).load < s.load := Nat.add_lt_add_left hload _
    omega

/-- Nothing is under way in the session but the watch, and nothing is owed. -/
structure Settled (s : Session) (r : Standing) : Prop where
  sound : Sound s
  idle : s.workspace.Idle
  requests : s.requests = []
  ledger : Workspace.ledger s.workspace.store = r.ledger
  live : r.period ≠ .past → s.workspace.store.isCancelled s.workspace.store.lifetime = false
  past : s.ended = true → r.period = .past ∧ r.ledger = {}
  phase : s.phase.period = r.period

/-- A job that has a request to make does not have to wait. -/
theorem nextOfJob?_of_request? {env : Surroundings} {id : Nat} {job : Job}
    {x : Purpose × Document.Request} (hx : job.request? s.ended = some x) :
    s.nextOfJob? env id job = some (.advance id) := by
  cases job with
  | watch =>
    have hended : s.workspace.store.isCancelled lifetime = true := Job.ended_of_isWatch hx rfl
    simp [nextOfJob?, hended]
  | farewell => rfl
  | close => rfl
  | enter => rfl
  | look => rfl
  | _ => cases hx

/-- A session in which nothing can be done owes nothing. -/
theorem Owes.rest (h : Owes s n r ns) {network : Network}
    (hrest : s.next? (around network) = none) : ns = [] ∧ Settled s r := by
  obtain ⟨hjobs, hmove⟩ := rest_of_next? hrest
  have hrequests : s.requests = [] := by
    refine List.filterMap_eq_nil_iff.2 fun job hjob => ?_
    obtain ⟨entry, hm, rfl⟩ := List.mem_map.1 hjob
    cases hx : entry.2.request? s.ended with
    | none => rfl
    | some x =>
      have hnone := hjobs entry.1 entry.2 hm
      rw [nextOfJob?_of_request? hx] at hnone
      cases hnone
  obtain ⟨store, hpends, horderly, hledger, hlive⟩ := h.pends
  rw [hrequests] at hpends
  cases hpends with
  | working hends =>
    obtain ⟨_, hidle, rfl, rfl⟩ := hends.rest hmove
    refine ⟨rfl, h.sound, ⟨hidle, h.sound.outbox, horderly⟩, hrequests, hledger, hlive, h.past, ?_⟩
    rcases h.phase with hphase | ⟨hended, hwatchers⟩
    · exact hphase
    · -- the watch would not have to wait
      obtain ⟨job, hjob, hwatch⟩ := List.countP_pos_iff.1 hwatchers
      have hnone := List.filterMap_eq_nil_iff.1 hrequests job hjob
      cases job with
      | watch => simp [Job.request?, hended] at hnone
      | _ => cases hwatch

theorem Works.owes {network : Network} {s s' : Session} (h : Works (around network) s s') {n : Nat}
    (howes : Owes s n r ns) : ∃ m ns', Owes s' m r ns' ∧ s.notices ++ ns = s'.notices ++ ns' := by
  induction h generalizing n ns with
  | refl s => exact ⟨n, ns, howes, rfl⟩
  | step ha _ ih =>
    obtain ⟨m, ns', hnext, hsent, _⟩ := howes.step ha
    obtain ⟨k, ns'', hlast, hrest⟩ := ih hnext
    exact ⟨k, ns'', hlast, hsent.trans hrest⟩

/-- In no order do jobs and tasks go on for ever. -/
theorem Owes.acc {network : Network} (h : Owes s n r ns) : Acc (Successor (around network)) s := by
  obtain ⟨bound, hbound⟩ : ∃ bound, s.load + n < bound := ⟨_, Nat.lt_succ_self _⟩
  induction bound generalizing s n ns with
  | zero => omega
  | succ bound ih =>
    refine Acc.intro s fun s' hs' => ?_
    obtain ⟨a, ha, rfl⟩ := hs'
    obtain ⟨m, ns', howes, _, hless⟩ := h.step ha
    exact ih howes (by omega)

end Owes

/-- What does not go on for ever comes to rest. -/
theorem rests_of_acc {env : Surroundings} {s : Session} (h : Acc (Successor env) s) :
    ∃ s', Works env s s' ∧ s'.next? env = none := by
  induction h with
  | intro s _ ih =>
    cases hnext : s.next? env with
    | none => exact ⟨s, .refl s, hnext⟩
    | some a =>
      have ha := enabled_of_next? hnext
      obtain ⟨s', hworks, hrest⟩ := ih (s.step a) ⟨a, ha, rfl⟩
      exact ⟨s', .step ha hworks, hrest⟩

end PromqlServer.Session
