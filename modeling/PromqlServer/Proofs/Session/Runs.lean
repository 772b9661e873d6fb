import PromqlServer.Proofs.Document.Stretches
import PromqlServer.Proofs.Document.Tasks
import PromqlServer.Proofs.Session.Trace

/-!
Runs of a session. A step of a session is one of its workspace or leaves the workspace as it is, so
that the document cache, with all that was sent, goes through a run in which requests are made by
their handlers (`Goes.cache`). In the runs of `Proceeds` a call is left only where it awaits.
-/

namespace PromqlServer.Document.Workspace

/-- A workspace that has sent more. -/
def saying (ns : List Notice) (w : Workspace) : Workspace := { w with outbox := ns ++ w.outbox }

/-- What was sent has no part in what a step does. -/
theorem step_saying (ns : List Notice) (w : Workspace) (a : Action) :
    (w.saying ns).step a = (w.step a).saying ns := by
  have htask : (w.saying ns).task? = w.task? := rfl
  have hturn : ∀ id c, (w.saying ns).store.turn id c = w.store.turn id c := fun _ _ => rfl
  cases a with
  | invoke | schedule | cancel => rfl
  | clear n => simp [step, clear, saying, send, emit]
  | advance id =>
    simp only [step, advance, htask]
    cases w.task? id with
    | none => rfl
    | some t =>
      cases t with
      | call p c =>
        simp only [advanceCall, hturn, note_eq, follow]
        cases w.store.turn id c with
        | blocked | next => rfl
        | done s reply =>
          simp only
          split <;> rfl
      | clearing ds =>
        cases ds with
        | nil => rfl
        | cons d ds => simp [clear, saying, send, emit, update]
      | publication e stage =>
        cases stage with
        | ready | analysing =>
          simp only [apply_ite (saying ns)]
          rfl
        | committing c =>
          simp only [advanceCommit, hturn, note_eq]
          cases w.store.turn id c with
          | blocked | done => rfl
          | next s c' => cases c <;> simp [saying, send, withStore, update]
  | analysed id analysis =>
    simp only [step, analysed, htask]
    cases w.task? id with
    | none => rfl
    | some t =>
      cases t with
      | call | clearing => rfl
      | publication e stage => cases stage <;> cases analysis <;> rfl

end PromqlServer.Document.Workspace

namespace PromqlServer.Session

open PromqlServer.Document PromqlServer.Prometheus

/-- What can come about in a session: of the documents only their tasks and analyses go on by
themselves. -/
def Action.Occurs : Action → Prop
  | .document (.advance _) | .document (.analysed ..) => True
  | .document _ => False
  | _ => True

instance : (a : Action) → Decidable a.Occurs
  | .document (.advance _) | .document (.analysed ..) => isTrue trivial
  | .document (.invoke ..) | .document (.schedule _) | .document (.clear _)
  | .document (.cancel _) => isFalse not_false
  | .receive _ | .advance _ | .backend _ | .endLifetime => isTrue trivial

/-- One session comes from another by steps that `allows` lets through. -/
inductive Goes (allows : Session → Action → Prop) (s : Session) : Session → Prop
  | refl : Goes allows s s
  | step {s' : Session} (h : Goes allows s s') (a : Action) (ha : allows s' a) :
      Goes allows s (s'.step a)

/-- One session comes from another by whatever can come about. -/
def Reaches : Session → Session → Prop := Goes fun _ a => a.Occurs

theorem Goes.trans {allows : Session → Action → Prop} {r s t : Session} (h : Goes allows r s)
    (h' : Goes allows s t) : Goes allows r t := by
  induction h' with
  | refl => exact h
  | step _ a ha ih => exact ih.step a ha

/-- Every action of a run is allowed where it comes. -/
def AllowsAll (allows : Session → Action → Prop) : Session → List Action → Prop
  | _, [] => True
  | s, a :: as => allows s a ∧ AllowsAll allows (s.step a) as

instance AllowsAll.decidable {allows : Session → Action → Prop} [∀ s a, Decidable (allows s a)] :
    (s : Session) → (actions : List Action) → Decidable (AllowsAll allows s actions)
  | _, [] => isTrue trivial
  | s, a :: as =>
    have : Decidable (AllowsAll allows (s.step a) as) := AllowsAll.decidable (s.step a) as
    inferInstanceAs (Decidable (allows s a ∧ AllowsAll allows (s.step a) as))

theorem Goes.run {allows : Session → Action → Prop} {r s : Session} {actions : List Action}
    (h : Goes allows r s) (hall : AllowsAll allows s actions) : Goes allows r (s.run actions) := by
  induction actions generalizing s with
  | nil => exact h
  | cons a as ih => exact ih (h.step a hall.1) hall.2

/-! ## Jobs and messages -/

/-- The request that the job makes is made for its purpose. -/
def Job.Suits (job : Job) : Prop :=
  ∀ ended p q, job.request? ended = some (p, q) → q.call.purpose? = some p

/-- Only the job of a message makes a request of its own. -/
theorem Job.suits_of_not_enter {job : Job} (h : ∀ p q, job ≠ .enter p q) : job.Suits := by
  intro ended p q hr
  cases job with
  | enter p q => exact absurd rfl (h p q)
  | watch =>
    simp only [Job.request?] at hr
    split at hr <;> cases hr
    rfl
  | farewell => cases hr; rfl
  | close => cases hr; rfl
  | look => cases hr; rfl
  | _ => cases hr

theorem Job.suits_enter {p : Purpose} {q : Document.Request} (h : q.call.purpose? = some p) :
    (Job.enter p q).Suits := by
  intro ended p' q' hr
  cases hr
  exact h

/-- A message takes its number; it is refused or ignored, or starts a job. -/
inductive Received (s s' : Session) : Prop
  | alone (outbox : List Outgoing) (hs : s' = { s.ignore with outbox })
      (hn : s'.notices = s.notices)
  | started (phase : Phase) (job : Job) (hs : s' = { s with phase }.start job)
      (hjob : job.Suits) (hactive : phase ≠ .created) (hrank : s.phase.rank ≤ phase.rank)

theorem receive_cases (s : Session) (m : Message) : Received s (s.receive m) := by
  have hrefuse : ∀ e, Received s (s.refuse e) := fun e =>
    .alone _ rfl (by simp [refuse, ignore, send, notices, Outgoing.notice?])
  have hignore : Received s s.ignore := .alone s.outbox rfl rfl
  have hphase : ∀ method, s.phase.ensureActive method = .ok () → s.phase ≠ .created := by
    intro method hactive hcreated
    rw [hcreated] at hactive
    cases hactive
  have hguarded : ∀ method job, (∀ j, job = some j → j.Suits) →
      Received s (s.guarded method job) := by
    intro method job hjob
    unfold guarded
    split
    · rename_i j hactive
      exact .started s.phase j rfl (hjob j rfl) (hphase method hactive) (Nat.le_refl _)
    · exact hignore
  cases m with
  | handshake options =>
    simp only [receive]
    split
    · exact hrefuse _
    · rename_i phase hok
      obtain ⟨hvalid, rfl⟩ := Phase.advance_eq_ok_iff.1 hok
      refine .started _ _ rfl (Job.suits_of_not_enter (by simp)) (by decide) ?_
      rw [List.mem_singleton.1 hvalid]
      decide
  | ready =>
    simp only [receive]
    split
    · exact hignore
    · rename_i phase hok
      obtain ⟨hvalid, rfl⟩ := Phase.advance_eq_ok_iff.1 hok
      refine .started _ _ rfl (Job.suits_of_not_enter (by simp)) (by decide) ?_
      rw [List.mem_singleton.1 hvalid]
      decide
  | shutdown =>
    simp only [receive]
    split
    · exact hrefuse _
    · rename_i phase hok
      have hless := Phase.rank_lt_of_shutdown hok
      obtain ⟨_, rfl⟩ := Phase.advance_eq_ok_iff.1 hok
      exact .started _ _ rfl (Job.suits_of_not_enter (by simp)) (by decide) (Nat.le_of_lt hless)
  | opened uri text version =>
    exact hguarded _ _ (by rintro _ ⟨⟩; exact Job.suits_enter rfl)
  | changed uri version changes =>
    refine hguarded _ _ fun j hj => ?_
    unfold changeJob at hj
    split at hj <;> cases hj
    exact Job.suits_enter rfl
  | closed uri => exact hguarded _ _ (by rintro _ ⟨⟩; exact Job.suits_enter rfl)
  | configured settings =>
    refine hguarded _ _ fun j hj => ?_
    obtain ⟨url, _, rfl⟩ := Option.map_eq_some_iff.1 hj
    exact Job.suits_of_not_enter (by simp)
  | complete uri position =>
    simp only [receive]
    split
    · exact hrefuse _
    · rename_i hactive
      exact .started s.phase _ rfl (Job.suits_of_not_enter (by simp)) (hphase _ hactive)
        (Nat.le_refl _)

/-- What the step of a job does to the jobs and their numbers; it does nothing to the documents
itself. -/
inductive Shifted (s : Session) (id : Nat) (s' : Session) : Prop
  | still (hjobs : s'.jobs = s.jobs) (hn : s'.numbered = s.numbered)
      (hstore : s'.workspace.store = s.workspace.store)
  | became (job : Job) (hjobs : s'.jobs = (s.become id job).jobs) (hn : s'.numbered = s.numbered)
      (hstore : s'.workspace.store = s.workspace.store)
  | finished (hjobs : s'.jobs = (s.finish id).jobs) (hn : s'.numbered = s.numbered)
      (hstore : s'.workspace.store = s.workspace.store)
  | passed (job : Job) (hjobs : s'.jobs = ((s.start job).finish id).jobs)
      (hn : s'.numbered = s.numbered + 1) (hstore : s'.workspace.store = s.workspace.store)

theorem shifted_advanceJob (s : Session) (id : Nat) (job : Job) :
    Shifted s id (s.advanceJob id job) := by
  cases job with
  | greet options => exact .became (.welcome options) rfl rfl rfl
  | confirm => exact .finished rfl rfl rfl
  | farewell => exact .became .close rfl rfl rfl
  | close => exact .became (.closing s.workspace.started) rfl rfl rfl
  | enter purpose request => exact .became (.handling s.workspace.started) rfl rfl rfl
  | look uri position => exact .became (.looking s.workspace.started position) rfl rfl rfl
  | switch url => exact .became (.switching s.client.arrived url) rfl rfl rfl
  | welcome options =>
    simp only [advanceJob, Session.welcome]
    split
    · exact .finished rfl rfl rfl
    · exact .passed _ rfl rfl rfl
  | closing task | handling task | draining task =>
    simp only [advanceJob]
    split
    · exact .still rfl rfl rfl
    · exact .finished rfl rfl rfl
  | watch =>
    simp only [advanceJob]
    split
    · exact .became (.draining s.workspace.started) rfl rfl rfl
    · exact .still rfl rfl rfl
  | asking operation context =>
    simp only [advanceJob]
    split
    · exact .still rfl rfl rfl
    · unfold offer
      split <;> exact .finished rfl rfl rfl
  | switching operation url =>
    simp only [advanceJob]
    split
    · exact .still rfl rfl rfl
    · unfold report
      split <;> exact .finished rfl rfl rfl
  | looking task position =>
    simp only [advanceJob]
    split
    · exact .still rfl rfl rfl
    · unfold look
      split
      · split
        · exact .finished rfl rfl rfl
        · rename_i context _
          exact .became (.asking s.client.arrived context) rfl rfl rfl
      · exact .finished rfl rfl rfl

theorem Shifted.store {s s' : Session} {id : Nat} (h : Shifted s id s') :
    s'.workspace.store = s.workspace.store := by
  cases h with
  | still _ _ hstore | became _ _ _ hstore | finished _ _ hstore | passed _ _ _ hstore =>
    exact hstore

/-- A job that has to wait does nothing. -/
theorem advanceJob_of_not_ready {s : Session} {id : Nat} {job : Job} (h : ¬ s.Ready job) :
    s.advanceJob id job = s := by
  cases job with
  | closing task | handling task | draining task =>
    have hpending : s.workspace.isPending task = true := by simpa [Ready] using h
    simp [advanceJob, hpending]
  | looking task position =>
    have hnone : s.workspace.reply? task = none := by simpa [Ready] using h
    simp [advanceJob, hnone]
  | asking operation context | switching operation url =>
    have hnone : s.client.result? operation = none := by simpa [Ready] using h
    simp [advanceJob, hnone]
  | watch =>
    have hlive : ¬ s.workspace.store.isCancelled lifetime = true := h
    simp [advanceJob, hlive]
  | _ => exact absurd trivial h

/-! ## Steps -/

/-- Jobs have numbers of their own and make their requests for their purposes, and what the
workspace sends is passed on at once. -/
structure Steady (s : Session) : Prop where
  distinct : Distinct s.jobs s.numbered
  outbox : s.workspace.outbox = []
  suited : ∀ job ∈ s.kinds, job.Suits

theorem steady_fresh (defaultUrl : String) (settings : Prometheus.Settings) :
    Steady (fresh defaultUrl settings) where
  distinct := ⟨by simp [fresh], by simp [fresh]⟩
  outbox := rfl
  suited := by
    intro job hjob
    cases List.mem_singleton.1 hjob
    exact Job.suits_of_not_enter (by simp)

/-- What a step can do. -/
inductive Stepped (s : Session) : Action → Session → Prop
  | received {m : Message} {s' : Session} (h : Received s s') : Stepped s (.receive m) s'
  /-- The job has to wait, or is over. -/
  | still {id : Nat} : Stepped s (.advance id) s
  | advanced {id : Nat} {job : Job} {s' : Session} (hm : (id, job) ∈ s.jobs)
      (h : Advanced s job s') : Stepped s (.advance id) s'
  | document {b : Document.Action} :
      Stepped s (.document b) { s with workspace := s.workspace.step b }.forward
  | backend {e : Prometheus.Event} :
      Stepped s (.backend e) { s with client := s.client.step e }
  | ended : Stepped s .endLifetime { s with workspace := s.workspace.step (.cancel lifetime) }

theorem Steady.stepped {s : Session} (h : Steady s) (a : Action) : Stepped s a (s.step a) := by
  cases a with
  | receive m => exact .received (receive_cases s m)
  | document b => exact .document
  | backend e => exact .backend
  | endLifetime => exact .ended
  | advance id =>
    simp only [step]
    cases hjob : s.job? id with
    | none => exact .still
    | some job =>
      have hm : (id, job) ∈ s.jobs := (Numbered.item?_eq_some_iff h.distinct.nodup).1 hjob
      by_cases hready : s.Ready job
      · exact .advanced hm (advanceJob_cases h.distinct hm hready)
      · simp only [advanceJob_of_not_ready hready]
        exact .still

/-- Jobs that come from a job that suits do so as well. -/
theorem Trades.suits {s : Session} {job : Job} {others : List Job} {jobs : List (Nat × Job)}
    {numbered : Nat} (h : Trades s job others jobs numbered) (hs : ∀ j ∈ s.kinds, j.Suits)
    (hothers : job.Suits → ∀ j ∈ others, j.Suits) : ∀ j ∈ jobs.map Prod.snd, j.Suits := by
  obtain ⟨rest, hold, hnew⟩ := h.kinds
  intro j hj
  rcases List.mem_append.1 (hnew.mem_iff.1 hj) with hj | hj
  · exact hothers (hs job (hold.mem_iff.2 (List.mem_cons_self ..))) j hj
  · exact hs j (hold.mem_iff.2 (List.mem_cons_of_mem _ hj))

theorem Steady.step {s : Session} (h : Steady s) (a : Action) : Steady (s.step a) := by
  have hs := h.stepped a
  generalize s.step a = s' at hs
  cases hs with
  | received hr =>
    cases hr with
    | alone outbox hs =>
      subst hs
      exact ⟨⟨h.distinct.nodup, fun x hx => Nat.lt_succ_of_lt (h.distinct.below x hx)⟩, h.outbox,
        h.suited⟩
    | started phase job hs hjob =>
      subst hs
      refine ⟨h.distinct.start job, h.outbox, fun j hj => ?_⟩
      simp only [kinds, start, List.map_append, List.mem_append] at hj
      rcases hj with hj | hj
      · exact h.suited j hj
      · cases List.mem_singleton.1 hj
        exact hjob
  | still => exact h
  | advanced hm hadvanced =>
    cases hadvanced with
    | aside others ht hw _ _ _ hrequest =>
      refine ⟨ht.distinct, by rw [hw]; exact h.outbox, ht.suits h.suited fun hjob j hj => ?_⟩
      intro ended p q hr
      have hmem : (p, q) ∈ others.filterMap (Job.request? ended) :=
        List.mem_filterMap.2 ⟨j, hj, hr⟩
      rw [hrequest, Option.mem_toList] at hmem
      exact hjob ended p q hmem
    | entered p q other _ ht hw _ _ _ hrequest =>
      refine ⟨ht.distinct, by rw [hw]; exact h.outbox, ht.suits h.suited fun _ j hj => ?_⟩
      intro ended p' q' hr
      rw [List.mem_singleton.1 hj, hrequest] at hr
      cases hr
  | document => exact ⟨h.distinct, rfl, h.suited⟩
  | backend => exact ⟨h.distinct, h.outbox, h.suited⟩
  | ended => exact ⟨h.distinct, h.outbox, h.suited⟩

/-! ## The workspace of a session -/

/-- The workspace with all that was sent. -/
def cache (s : Session) : Workspace := s.workspace.saying s.notices

theorem cache_callAt (s : Session) : s.cache.callAt = s.workspace.callAt := rfl

theorem Steady.cache_outbox {s : Session} (h : Steady s) : s.cache.outbox = s.notices := by
  simp [cache, Workspace.saying, h.outbox]

/-- What a step of a session is to its workspace. -/
inductive Followed (w : Workspace) : Action → Workspace → Prop
  | still {a : Action} : Followed w a w
  | entered {id : Nat} {p : Purpose} {q : Document.Request} (hp : q.call.purpose? = some p) :
      Followed w (.advance id) (w.step (.invoke p q))
  | document {b : Document.Action} : Followed w (.document b) (w.step b)
  | ended : Followed w .endLifetime (w.step (.cancel lifetime))

theorem cache_document (s : Session) (b : Document.Action) :
    (s.step (.document b)).cache = s.cache.step b := by
  have hsent : (s.step (.document b)).notices = s.notices ++ (s.workspace.step b).outbox := by
    have hout : (s.step (.document b)).outbox
        = s.outbox ++ (s.workspace.step b).outbox.map .diagnostics := rfl
    rw [notices, notices, hout, List.filterMap_append, filterMap_notice?]
  have hworkspace : (s.step (.document b)).workspace = { s.workspace.step b with outbox := [] } :=
    rfl
  rw [cache, cache, hsent, Workspace.step_saying, hworkspace]
  simp [Workspace.saying]

theorem Steady.followed {s : Session} (h : Steady s) (a : Action) :
    Followed s.cache a (s.step a).cache := by
  have hsame : ∀ {s' : Session}, s'.workspace = s.workspace → s'.notices = s.notices →
      s'.cache = s.cache := fun hw hn => by rw [cache, cache, hw, hn]
  have hs := h.stepped a
  generalize s.step a = s' at hs
  cases hs with
  | received hr =>
    cases hr with
    | alone outbox hs hn =>
      rw [hsame (by rw [hs]; rfl) hn]
      exact .still
    | started phase job hs =>
      subst hs
      exact .still
  | still => exact .still
  | advanced hm hadvanced =>
    cases hadvanced with
    | aside others _ hw _ hn =>
      rw [hsame hw hn]
      exact .still
    | entered p q other hr _ hw _ hn =>
      have hcache : s'.cache = s.cache.step (.invoke p q) := by
        rw [cache, cache, hw, hn, Workspace.step_saying]
        rfl
      rw [hcache]
      exact .entered (h.suited _ (List.mem_map_of_mem hm) _ p q hr)
  | @document b =>
    have hcache : ({ s with workspace := s.workspace.step b } : Session).forward.cache
        = s.cache.step b := cache_document s b
    rw [hcache]
    exact .document
  | backend => exact .still
  | ended =>
    have hcache : ({ s with workspace := s.workspace.step (.cancel lifetime) } : Session).cache
        = s.cache.step (.cancel lifetime) := by
      rw [cache, cache, Workspace.step_saying]
      rfl
    rw [hcache]
    exact .ended

theorem Followed.handles {w w' : Workspace} {a : Action} (h : Followed w a w') (ha : a.Occurs) :
    w' = w ∨ ∃ b, w.Handles b ∧ w' = w.step b := by
  cases h with
  | still => exact Or.inl rfl
  | @entered _ p q hp => exact Or.inr ⟨.invoke p q, hp, rfl⟩
  | @document b =>
    refine Or.inr ⟨b, ?_, rfl⟩
    cases b with
    | advance | analysed => exact trivial
    | _ => exact ha.elim
  | ended => exact Or.inr ⟨.cancel lifetime, List.nil_prefix, rfl⟩

theorem Goes.steady {allows : Session → Action → Prop} {s s' : Session} (h : Goes allows s s')
    (hs : Steady s) : Steady s' := by
  induction h with
  | refl => exact hs
  | step _ a _ ih => exact ih.step a

/-- Along a run of a session its workspace goes through a run, of steps that are allowed if those
of the session are. -/
theorem Goes.cache {allows : Session → Action → Prop} {s s' : Session} (h : Goes allows s s')
    (hs : Steady s) {allowed : Workspace → Document.Action → Prop}
    (hoccurs : ∀ r a, allows r a → a.Occurs)
    (hallowed : ∀ r a b, allows r a → r.cache.Handles b → (r.step a).cache = r.cache.step b →
      allowed r.cache b) : Workspace.Goes allowed s.cache s'.cache := by
  induction h with
  | refl => exact .refl
  | @step r h a ha ih =>
    rcases ((h.steady hs).followed a).handles (hoccurs r a ha) with hsame | ⟨b, hb, hstep⟩
    · rw [hsame]
      exact ih
    · rw [hstep]
      exact ih.step b (hallowed r a b ha hb hstep)

section Reached

variable {defaultUrl : String} {settings : Prometheus.Settings} {s s' : Session}

theorem Reaches.steady (h : Reaches (fresh defaultUrl settings) s) : Steady s :=
  Goes.steady h (steady_fresh defaultUrl settings)

/-- The workspace of a session goes through a run in which requests are made for their purposes. -/
theorem Reaches.cache (h : Reaches (fresh defaultUrl settings) s) :
    Workspace.Goes Workspace.Handles (Workspace.fresh [0]) s.cache :=
  Goes.cache h (steady_fresh defaultUrl settings) (fun _ _ ha => ha) fun _ _ _ _ hb _ => hb

theorem Reaches.cache_from (h : Reaches (fresh defaultUrl settings) s) (h' : Reaches s s') :
    Workspace.Reaches s.cache s'.cache :=
  (Goes.cache h' h.steady (fun _ _ ha => ha) fun _ _ _ _ hb _ => hb).reaches
    fun _ _ ha => ha.admits

/-- What was sent is what the history of the workspace tells. -/
theorem Reaches.notices_eq (h : Reaches (fresh defaultUrl settings) s) :
    s.notices = Workspace.sentNotices s.workspace.history :=
  h.steady.cache_outbox.symm.trans h.cache.allSent

end Reached

/-! ## From one wait to the next -/

/-- A call goes on to its next wait, for at most `n` turns. -/
def toNextAwait (id : Nat) : Nat → Session → Session
  | 0, s => s
  | n + 1, s =>
    match s.workspace.callAt id with
    | some c => if c.isMidway then toNextAwait id n (s.step (.document (.advance id))) else s
    | none => s

/-- One step of the session, in which a task of the workspace goes on to its next wait. -/
def stride (s : Session) : Action → Session
  | .document (.advance id) => toNextAwait id 2 (s.step (.document (.advance id)))
  | a => s.step a

/-- One session comes from another by whatever can come about, with no task of the workspace left
between two waits. -/
inductive Proceeds (s : Session) : Session → Prop
  | refl : Proceeds s s
  | stride {s' : Session} (h : Proceeds s s') (a : Action) (ha : a.Occurs) :
      Proceeds s (s'.stride a)

theorem Proceeds.run {r s : Session} {actions : List Action} (h : Proceeds r s)
    (ha : ∀ a ∈ actions, a.Occurs) : Proceeds r (actions.foldl Session.stride s) := by
  induction actions generalizing s with
  | nil => exact h
  | cons a as ih =>
    exact ih (h.stride a (ha a (List.mem_cons_self ..))) fun b hb =>
      ha b (List.mem_cons_of_mem _ hb)

theorem Goes.toNextAwait {r s : Session} (h : Reaches r s) (id n : Nat) :
    Reaches r (toNextAwait id n s) := by
  induction n generalizing s with
  | zero => exact h
  | succ n ih =>
    rw [Session.toNextAwait]
    split
    · split
      · exact ih (Goes.step h (.document (.advance id)) trivial)
      · exact h
    · exact h

theorem cache_toNextAwait (id n : Nat) (s : Session) :
    (toNextAwait id n s).cache = Workspace.toNextAwait id n s.cache := by
  induction n generalizing s with
  | zero => rfl
  | succ n ih =>
    rw [toNextAwait, Workspace.toNextAwait, cache_callAt]
    cases s.workspace.callAt id with
    | none => rfl
    | some c =>
      simp only
      split
      · rw [ih, cache_document]
        rfl
      · rfl

theorem Proceeds.reaches {r s : Session} (h : Proceeds r s) : Reaches r s := by
  induction h with
  | refl => exact Goes.refl
  | @stride s h a ha ih =>
    have hstep : Reaches r (s.step a) := Goes.step ih a ha
    unfold Session.stride
    split
    · exact Goes.toNextAwait hstep _ 2
    · exact hstep

/-- Between two strides of a session no call is midway. -/
theorem Proceeds.atRest {defaultUrl : String} {settings : Prometheus.Settings} {s : Session}
    (h : Proceeds (fresh defaultUrl settings) s) : s.workspace.AtRest := by
  suffices hcache : Workspace.Proceeds (Workspace.fresh [0]) s.cache from hcache.spec.2
  induction h with
  | refl => exact .refl
  | @stride s h a ha ih =>
    by_cases hadv : ∃ id, a = .document (.advance id)
    · obtain ⟨id, rfl⟩ := hadv
      have hcache : (s.stride (.document (.advance id))).cache = s.cache.stride (.advance id) := by
        rw [Session.stride, cache_toNextAwait, cache_document]
        rfl
      rw [hcache]
      exact ih.stride (.advance id) trivial
    · have hstride : s.stride a = s.step a := by
        unfold Session.stride
        split
        · exact absurd ⟨_, rfl⟩ hadv
        · rfl
      have hfollowed := h.reaches.steady.followed a
      rw [hstride]
      generalize (s.step a).cache = w at hfollowed
      cases hfollowed with
      | still => exact ih
      | entered hp => exact ih.stride (.invoke _ _) (Workspace.Handles.admits hp)
      | @document b =>
        cases b with
        | advance id => exact absurd ⟨id, rfl⟩ hadv
        | analysed id analysis => exact ih.stride (.analysed id analysis) trivial
        | _ => exact ha.elim
      | ended => exact ih.stride (.cancel lifetime) List.nil_prefix

end PromqlServer.Session
