import Mathlib.Data.List.Forall2
import PromqlServer.Proofs.Session.Progress

/-!
The diagnostics of a session. A client can tell in advance which notices each `did_open`,
`did_change`, `did_close` and `shutdown` brings, from the messages alone: `Standing.after` says
which. `diagnostics_trace` is that a session sends these and no others, whatever comes to it and in
whichever order its jobs and tasks go on.
-/

namespace PromqlServer.Session

open PromqlServer.Document PromqlServer.Prometheus

/-- A session before its first message. -/
def fresh (defaultUrl : String) (settings : Prometheus.Settings) : Session :=
  { defaultUrl, client := { settings } }

/-- What comes to a session from outside. -/
inductive Input where
  | message (m : Message)
  /-- The lifetime of the session ends. -/
  | endLifetime
  deriving Repr

def Input.action : Input → Action
  | .message m => .receive m
  | .endLifetime => .endLifetime

namespace Standing

/-- Messages about documents count while the session is active. -/
def whileActive (r : Standing) (entry : Ledger → Ledger × List Notice) : Standing × List Notice :=
  if r.period = .active then ({ r with ledger := (entry r.ledger).1 }, (entry r.ledger).2)
  else (r, [])

/-- The end of the session, in which all diagnostics are taken back. -/
def ending (r : Standing) : Standing × List Notice :=
  ({ period := .past, ledger := r.ledger.drained.1 }, r.ledger.drained.2)

/-- Where the session stands after an input, and what the client is told. Of the changes of a
document only the last one counts, and only if it replaces the whole text. -/
def after (r : Standing) : Input → Standing × List Notice
  | .message (.handshake _) => (if r.period = .created then { r with period := .active } else r, [])
  | .message .shutdown => if r.period = .active then r.ending else (r, [])
  | .message (.opened uri text version) => r.whileActive fun l => l.opened uri text version
  | .message (.changed uri version changes) =>
    match changes.getLast? with
    | some ⟨none, text⟩ => r.whileActive fun l => l.changed uri text version
    | _ => (r, [])
  | .message (.closed uri) => r.whileActive fun l => l.closed uri
  | .message .ready | .message (.configured _) | .message (.complete _ _) => (r, [])
  | .endLifetime => r.ending

/-- The standing after some inputs. -/
def run (r : Standing) (inputs : List Input) : Standing := inputs.foldl (fun r i => (r.after i).1) r

/-- The notices of each input. -/
def trace (r : Standing) : List Input → List (List Notice)
  | [] => []
  | i :: is => (r.after i).2 :: (r.after i).1.trace is

end Standing

/-- Inputs come one after the other, each when nothing is left to do for the one before. The jobs
and tasks go on in any order, and the network may answer differently for each. What the client was
told comes with the result, input by input. -/
inductive Plays : Session → List Input → List (List Notice) → Session → Prop
  | nil (s : Session) : Plays s [] [] s
  | cons {s s' s'' : Session} {i : Input} {is : List Input} {nss : List (List Notice)}
      (network : Network)
      (hworks : Works (around network) ({ s with outbox := [] }.step i.action) s')
      (hrest : s'.next? (around network) = none) (h : Plays s' is nss s'') :
      Plays s (i :: is) (s'.notices :: nss) s''

/-! ## An input -/

section Inputs

variable {s : Session} {r : Standing}

theorem isActive_iff (phase : Phase) : phase.isActive = true ↔ phase.period = .active := by
  cases phase <;> simp [Phase.isActive, Phase.period]

theorem mem_open_iff (phase : Phase) :
    phase ∈ [Phase.initializing, Phase.initialized] ↔ phase.period = .active := by
  cases phase <;> simp [Phase.period]

theorem settled_fresh (defaultUrl : String) (settings : Prometheus.Settings) :
    Settled (fresh defaultUrl settings) {} where
  sound :=
    { distinct := ⟨by simp [fresh], by simp [fresh]⟩
      outbox := rfl
      lifetime := rfl
      client := Client.sane_fresh settings
      watched := fun _ => rfl }
  idle := ⟨rfl, rfl, Store.orderly_fresh [0]⟩
  requests := rfl
  ledger := rfl
  live := fun _ => rfl
  past := fun h => by cases h
  phase := rfl

/-- What was sent has no part in what is to be done. -/
theorem Settled.cleared (h : Settled s r) : Settled { s with outbox := [] } r :=
  ⟨⟨h.sound.distinct, h.sound.outbox, h.sound.lifetime, h.sound.client, h.sound.watched⟩, h.idle,
    h.requests, h.ledger, h.live, h.past, h.phase⟩

theorem Settled.ended_of_ne_past (h : Settled s r) (hr : r.period ≠ .past) : s.ended = false := by
  cases he : s.ended with
  | false => rfl
  | true => exact absurd (h.past he).1 hr

/-- A message that takes its number and no more. -/
theorem Settled.ignored (h : Settled s r) {s' : Session}
    (hs' : s' = { s.ignore with outbox := s'.outbox }) : Owes s' 0 r [] := by
  rw [hs']
  refine ⟨⟨⟨h.sound.distinct.nodup, fun x hx => Nat.lt_succ_of_lt (h.sound.distinct.below x hx)⟩,
    h.sound.outbox, h.sound.lifetime, h.sound.client, h.sound.watched⟩,
    ⟨s.workspace.store, ?_, h.idle.orderly, h.ledger, h.live⟩, h.past, Or.inl h.phase⟩
  have hends : Pends [] s.workspace 0 s.workspace.store [] := .working (.idle h.idle.tasks)
  rw [← h.requests] at hends
  exact hends

/-- A message starts a job. -/
theorem Settled.starts (h : Settled s r) (phase : Phase) {job : Job} {r' : Standing} {n : Nat}
    {store : Store} {ns : List Notice} (hwatch : job.isWatch = false)
    (hpends : Pends (job.request? s.ended).toList s.workspace n store ns) (horderly : store.Orderly)
    (hledger : Workspace.ledger store = r'.ledger)
    (hlive : r'.period ≠ .past → store.isCancelled store.lifetime = false)
    (hover : s.ended = false) (hphase : phase.period = r'.period) :
    Owes ({ s with phase }.start job) n r' ns := by
  have hkinds : ({ s with phase }.start job).kinds = s.kinds ++ [job] := by
    simp [Session.kinds, Session.start]
  have hended : ({ s with phase }.start job).ended = s.ended := rfl
  have hrequests : ({ s with phase }.start job).requests = (job.request? s.ended).toList := by
    have hnone := h.requests
    rw [Session.requests] at hnone
    rw [Session.requests, hkinds, hended, List.filterMap_append, hnone]
    cases hj : job.request? s.ended <;> simp [hj]
  have hwatchers : ({ s with phase }.start job).watchers = s.watchers := by
    simp [Session.watchers, hkinds, hwatch]
  refine ⟨⟨Distinct.start h.sound.distinct job, h.sound.outbox, h.sound.lifetime, h.sound.client,
    ?_⟩, ⟨store, ?_, horderly, hledger, hlive⟩, ?_, Or.inl hphase⟩
  · rw [hwatchers]
    exact h.sound.watched
  · rw [hrequests]
    exact hpends
  · rw [hended, hover]
    intro hnot
    cases hnot

/-- A message starts a job that asks nothing of the workspace. -/
theorem Settled.starts_calm (h : Settled s r) (phase : Phase) {job : Job} {r' : Standing}
    (hwatch : job.isWatch = false) (hrequest : ∀ ended, job.request? ended = none)
    (hlive : r.period ≠ .past) (hphase : phase.period = r'.period)
    (hledger : r'.ledger = r.ledger) : Owes ({ s with phase }.start job) 0 r' [] := by
  have hends : Pends (job.request? s.ended).toList s.workspace 0 s.workspace.store [] := by
    rw [hrequest]
    exact .working (.idle h.idle.tasks)
  exact h.starts phase hwatch hends h.idle.orderly (h.ledger.trans hledger.symm)
    (fun _ => h.live hlive) (h.ended_of_ne_past hlive) hphase

/-- A message starts a job that makes a request of the workspace. -/
theorem Settled.starts_entry (h : Settled s r) (hactive : r.period = .active) {purpose : Purpose}
    {request : Document.Request} (entry : Ledger → Ledger × List Notice) {job : Job}
    (hwatch : job.isWatch = false)
    (hrequest : ∀ ended, job.request? ended = some (purpose, request))
    (henters : s.workspace.Enters purpose request (entry r.ledger)) :
    ∃ n, Owes (s.start job) n (r.whileActive entry).1 (r.whileActive entry).2 := by
  obtain ⟨n, store, hends, horderly, hledger, hbeside⟩ := henters
  have hne : r.period ≠ .past := by rw [hactive]; decide
  have hlive : store.isCancelled store.lifetime = false := by
    rw [hbeside.lifetime, hbeside.cancelled _ List.prefix_rfl]
    exact h.live hne
  rw [Standing.whileActive, if_pos hactive]
  refine ⟨n, h.starts s.phase hwatch ?_ horderly hledger (fun _ => hlive)
    (h.ended_of_ne_past hne) h.phase⟩
  rw [hrequest]
  exact .asking h.idle.tasks hends

theorem Settled.guarded_of_active (h : Settled s r) (hactive : r.period = .active) (method : String)
    (job : Job) : s.guarded method (some job) = s.start job := by
  have hphase : s.phase.isActive = true := (isActive_iff _).2 (h.phase.trans hactive)
  simp [guarded, Phase.ensureActive, hphase]

theorem Settled.guarded_of_inactive (h : Settled s r) (hactive : r.period ≠ .active)
    (method : String) (job : Option Job) : s.guarded method job = s.ignore := by
  have hphase : ¬ s.phase.isActive = true := by
    rw [isActive_iff, h.phase]
    exact hactive
  simp [guarded, Phase.ensureActive, hphase]

/-- The session owes what the standing says. -/
def Follows (s : Session) (next : Standing × List Notice) : Prop := ∃ n, Owes s n next.1 next.2

/-- A message about a document. -/
theorem Settled.guarded (h : Settled s r) (method : String) {purpose : Purpose}
    {request : Document.Request} {entry : Ledger → Ledger × List Notice}
    (henters : r.period = .active → s.workspace.Enters purpose request (entry r.ledger)) :
    Follows (s.guarded method (some (.enter purpose request))) (r.whileActive entry) := by
  by_cases hactive : r.period = .active
  · rw [h.guarded_of_active hactive]
    exact h.starts_entry hactive entry rfl (fun _ => rfl) (henters hactive)
  · rw [h.guarded_of_inactive hactive, Standing.whileActive, if_neg hactive]
    exact ⟨0, h.ignored rfl⟩

/-- A message that the workspace has no part in. -/
theorem Settled.guarded_calm (h : Settled s r) (method : String) {job : Option Job}
    (hjob : ∀ j, job = some j → j.isWatch = false ∧ ∀ ended, j.request? ended = none) :
    Follows (s.guarded method job) (r, []) := by
  by_cases hactive : r.period = .active
  · cases job with
    | none =>
      have hignore : s.guarded method none = s.ignore := by
        unfold Session.guarded
        split
        · rename_i heq
          cases heq
        · rfl
      rw [hignore]
      exact ⟨0, h.ignored rfl⟩
    | some j =>
      obtain ⟨hwatch, hrequest⟩ := hjob j rfl
      rw [h.guarded_of_active hactive]
      have hne : r.period ≠ .past := by rw [hactive]; decide
      exact ⟨0, h.starts_calm s.phase hwatch hrequest hne h.phase rfl⟩
  · rw [h.guarded_of_inactive hactive]
    exact ⟨0, h.ignored rfl⟩

theorem Settled.handshake (h : Settled s r) (options : Option Json) :
    Follows (s.receive (.handshake options)) (r.after (.message (.handshake options))) := by
  have hperiod := h.phase
  cases hp : s.phase with
  | created =>
    rw [hp] at hperiod
    have hr : r.period = .created := hperiod.symm
    have hreceive : s.receive (.handshake options)
        = { s with phase := .initializing }.start (.greet options) := by
      simp [receive, Phase.beginHandshake, Phase.advance, hp]
    rw [hreceive, Standing.after, if_pos hr]
    exact ⟨0, h.starts_calm .initializing rfl (fun _ => rfl) (by rw [hr]; decide) rfl rfl⟩
  | _ =>
    rw [hp] at hperiod
    have hr : ¬ r.period = .created := by rw [← hperiod]; decide
    rw [Standing.after, if_neg hr]
    refine ⟨0, h.ignored ?_⟩
    simp [receive, Phase.beginHandshake, Phase.advance, hp, refuse, ignore, send]

theorem Settled.ready (h : Settled s r) : Follows (s.receive .ready) (r, []) := by
  have hperiod := h.phase
  cases hp : s.phase with
  | initializing =>
    rw [hp] at hperiod
    have hne : r.period ≠ .past := by rw [← hperiod]; decide
    have hreceive : s.receive .ready = { s with phase := .initialized }.start .confirm := by
      simp [receive, Phase.completeHandshake, Phase.advance, hp]
    rw [hreceive]
    exact ⟨0, h.starts_calm .initialized rfl (fun _ => rfl) hne hperiod rfl⟩
  | _ =>
    refine ⟨0, h.ignored ?_⟩
    simp [receive, Phase.completeHandshake, Phase.advance, hp, ignore]

theorem Settled.shutdown (h : Settled s r) :
    Follows (s.receive .shutdown) (r.after (.message .shutdown)) := by
  by_cases hactive : r.period = .active
  · have hmem := (mem_open_iff s.phase).2 (h.phase.trans hactive)
    have hreceive : s.receive .shutdown = { s with phase := .shutDown }.start .farewell := by
      simp only [receive, Phase.shutdown, Phase.advance, if_pos hmem]
    obtain ⟨n, store, hends, horderly, hledger⟩ := h.idle.ends_shutdown
    rw [h.ledger] at hends hledger
    rw [hreceive, Standing.after, if_pos hactive]
    exact ⟨n, h.starts .shutDown rfl (.asking h.idle.tasks hends) horderly hledger
      (fun hne => absurd rfl hne) (h.ended_of_ne_past (by rw [hactive]; decide)) rfl⟩
  · have hmem : s.phase ∉ [Phase.initializing, Phase.initialized] := by
      rw [mem_open_iff, h.phase]
      exact hactive
    rw [Standing.after, if_neg hactive]
    refine ⟨0, h.ignored ?_⟩
    simp only [receive, Phase.shutdown, Phase.advance, if_neg hmem, refuse]
    rfl

theorem Settled.complete (h : Settled s r) (uri : Uri) (position : Text.Position) :
    Follows (s.receive (.complete uri position)) (r, []) := by
  by_cases hactive : r.period = .active
  · have hphase : s.phase.isActive = true := (isActive_iff _).2 (h.phase.trans hactive)
    have hreceive : s.receive (.complete uri position) = s.start (.look uri position) := by
      simp [receive, Phase.ensureActive, hphase]
    have henters := h.idle.enters_snapshot uri
    rw [h.ledger] at henters
    have hsame : r.whileActive (fun l => (l, [])) = (r, []) := by
      rw [Standing.whileActive, if_pos hactive]
    rw [hreceive, ← hsame]
    exact h.starts_entry hactive (fun l => (l, [])) rfl (fun _ => rfl) henters
  · have hphase : ¬ s.phase.isActive = true := by
      rw [isActive_iff, h.phase]
      exact hactive
    refine ⟨0, h.ignored ?_⟩
    simp [receive, Phase.ensureActive, hphase, refuse, ignore, send]

theorem Settled.receive (h : Settled s r) (m : Message) :
    Follows (s.receive m) (r.after (.message m)) := by
  cases m with
  | handshake options => exact h.handshake options
  | ready => exact h.ready
  | shutdown => exact h.shutdown
  | complete uri position => exact h.complete uri position
  | opened uri text version =>
    refine h.guarded _ fun hactive => ?_
    rw [← h.ledger]
    exact h.idle.enters_track (h.live (by rw [hactive]; decide))
  | changed uri version changes =>
    simp only [Session.receive, changeJob, Standing.after]
    cases changes.getLast? with
    | none => exact h.guarded_calm _ (by simp)
    | some change =>
      obtain ⟨range, text⟩ := change
      cases range with
      | some range => exact h.guarded_calm _ (by simp)
      | none =>
        refine h.guarded _ fun hactive => ?_
        rw [← h.ledger]
        exact h.idle.enters_change (h.live (by rw [hactive]; decide))
  | closed uri =>
    refine h.guarded _ fun hactive => ?_
    rw [← h.ledger]
    exact h.idle.enters_close
  | configured settings =>
    refine h.guarded_calm _ fun j hj => ?_
    obtain ⟨url, _, rfl⟩ := Option.map_eq_some_iff.1 hj
    exact ⟨rfl, fun _ => rfl⟩

/-- When the lifetime ends, the watches among jobs have a request to make, and no other job gets
one. -/
theorem requests_of_watches (jobs : List Job) (h : jobs.filterMap (Job.request? false) = []) :
    jobs.filterMap (Job.request? true)
      = List.replicate (jobs.countP Job.isWatch) (.clear, .shutdown) := by
  induction jobs with
  | nil => rfl
  | cons job jobs ih =>
    have hnone := List.filterMap_eq_nil_iff.1 h
    have hjob := hnone job (List.mem_cons_self ..)
    have hrest := ih (List.filterMap_eq_nil_iff.2 fun j hj => hnone j (List.mem_cons_of_mem _ hj))
    cases job with
    | watch =>
      have hwatch : Job.request? true .watch = some (.clear, .shutdown) := rfl
      rw [List.filterMap_cons_some hwatch, hrest, List.countP_cons_of_pos (by rfl),
        List.replicate_succ]
    | farewell | close | enter | look => cases hjob
    | _ =>
      rw [List.filterMap_cons_none (by rfl), hrest, List.countP_cons_of_neg (by simp [Job.isWatch])]

theorem Settled.endLifetime (h : Settled s r) : Follows (s.step .endLifetime) r.ending := by
  obtain ⟨w, hw⟩ : ∃ w, w = s.workspace.step (.cancel lifetime) := ⟨_, rfl⟩
  have hroot : lifetime <+: s.workspace.store.lifetime := List.nil_prefix
  have hstore : w.store = s.workspace.store.cancel lifetime := by rw [hw]; rfl
  have hidle : w.Idle := by
    refine ⟨by rw [hw]; exact h.idle.tasks, by rw [hw]; exact h.idle.outbox, ?_⟩
    rw [hstore]
    exact h.idle.orderly.cancel_above hroot
  have hledger : Workspace.ledger w.store = r.ledger := by
    rw [hstore]
    exact h.ledger
  have hstep : s.step .endLifetime = { s with workspace := w } := by rw [hw]; rfl
  have hended : ended { s with workspace := w } = true := by
    simp only [ended, hstore]
    exact Scope.isCancelled_cons_self _ _
  have hsound : Sound { s with workspace := w } := by
    refine ⟨h.sound.distinct, hidle.outbox, ?_, h.sound.client, fun hnot => ?_⟩
    · rw [hstore]
      exact h.sound.lifetime
    · rw [hended] at hnot
      cases hnot
  rw [hstep]
  cases hbefore : s.ended with
  | true =>
    -- the session is over already, and nothing is left to take back
    obtain ⟨hover, hempty⟩ := h.past hbefore
    have hending : r.ending = (r, []) := by
      obtain ⟨period, ledger⟩ := r
      cases hover
      cases hempty
      rfl
    have hrequests : Session.requests { s with workspace := w } = [] := by
      have hnone := h.requests
      rw [Session.requests, hbefore] at hnone
      rw [Session.requests, hended]
      exact hnone
    rw [hending]
    refine ⟨0, hsound, ⟨w.store, ?_, hidle.orderly, hledger, fun hne => absurd hover hne⟩,
      fun _ => ⟨hover, hempty⟩, Or.inl h.phase⟩
    rw [hrequests]
    exact .working (.idle hidle.tasks)
  | false =>
    have hone := h.sound.watched hbefore
    have hrequests : Session.requests { s with workspace := w } = [(.clear, .shutdown)] := by
      have hnone := h.requests
      rw [Session.requests, hbefore] at hnone
      rw [Session.requests, hended]
      have hwatches := requests_of_watches s.kinds hnone
      rw [show s.kinds.countP Job.isWatch = 1 from hone] at hwatches
      exact hwatches
    obtain ⟨n, store, hends, horderly, hafter⟩ := hidle.ends_shutdown
    rw [hledger] at hends hafter
    refine ⟨n, hsound, ⟨store, ?_, horderly, hafter, fun hne => absurd rfl hne⟩,
      fun _ => ⟨rfl, rfl⟩, Or.inr ⟨hended, ?_⟩⟩
    · rw [hrequests]
      exact .asking hidle.tasks hends
    · have hwatchers : watchers { s with workspace := w } = 1 := hone
      rw [hwatchers]
      exact Nat.one_pos

theorem Settled.input (h : Settled s r) (i : Input) : Follows (s.step i.action) (r.after i) := by
  cases i with
  | message m => exact h.receive m
  | endLifetime => exact h.endLifetime

theorem notices_guarded (s : Session) (method : String) (job : Option Job) :
    (s.guarded method job).notices = s.notices := by
  unfold guarded
  split <;> rfl

/-- An input by itself sends no notice. -/
theorem notices_input (s : Session) (i : Input) : (s.step i.action).notices = s.notices := by
  have hrefuse : ∀ e, (s.refuse e).notices = s.notices := by
    intro e
    simp [refuse, ignore, send, notices, Outgoing.notice?]
  cases i with
  | endLifetime => rfl
  | message m =>
    change (s.receive m).notices = s.notices
    cases m with
    | opened | changed | closed | configured => exact notices_guarded ..
    | handshake | shutdown | complete =>
      simp only [receive]
      split
      · exact hrefuse _
      · rfl
    | ready =>
      simp only [receive]
      split <;> rfl

end Inputs

/-! ## All inputs -/

section Traces

variable {s s' : Session} {r : Standing} {network : Network} {i : Input}

/-- What an input comes to, in whichever order things are done. -/
theorem Settled.worked (h : Settled s r)
    (hworks : Works (around network) ({ s with outbox := [] }.step i.action) s')
    (hrest : s'.next? (around network) = none) :
    s'.notices = (r.after i).2 ∧ Settled s' (r.after i).1 := by
  obtain ⟨n, howes⟩ := h.cleared.input i
  obtain ⟨m, ns, hlast, hsent⟩ := hworks.owes howes
  obtain ⟨rfl, hsettled⟩ := hlast.rest hrest
  rw [notices_input, List.append_nil] at hsent
  exact ⟨hsent.symm, hsettled⟩

theorem Settled.acc (h : Settled s r) (i : Input) (network : Network) :
    Acc (Successor (around network)) ({ s with outbox := [] }.step i.action) := by
  obtain ⟨n, howes⟩ := h.cleared.input i
  exact howes.acc

theorem Plays.settled {inputs : List Input} {nss : List (List Notice)} (h : Plays s inputs nss s')
    (hs : Settled s r) : nss = r.trace inputs ∧ Settled s' (r.run inputs) := by
  induction h generalizing r with
  | nil => exact ⟨rfl, hs⟩
  | cons network hworks hrest _ ih =>
    obtain ⟨hsent, hnext⟩ := hs.worked hworks hrest
    obtain ⟨htrace, hlast⟩ := ih hnext
    exact ⟨by rw [hsent, htrace]; rfl, hlast⟩

/-- Inputs can be taken to their end, one after the other. -/
theorem Settled.plays (h : Settled s r) (inputs : List Input) :
    ∃ nss s', Plays s inputs nss s' := by
  induction inputs generalizing s r with
  | nil => exact ⟨[], s, .nil s⟩
  | cons i is ih =>
    obtain ⟨s', hworks, hrest⟩ := rests_of_acc (h.acc i Network.unreachable)
    obtain ⟨nss, s'', hplays⟩ := ih (h.worked hworks hrest).2
    exact ⟨_, s'', .cons _ hworks hrest hplays⟩

/-- A session that is over tells its client nothing any more. -/
theorem Standing.trace_of_past (hover : r.period = .past) (hempty : r.ledger = {})
    (inputs : List Input) : ∀ ns ∈ r.trace inputs, ns = [] := by
  induction inputs with
  | nil => simp [Standing.trace]
  | cons i is ih =>
    have hsame : r.after i = (r, []) := by
      obtain ⟨period, ledger⟩ := r
      cases hover
      cases hempty
      cases i with
      | endLifetime => rfl
      | message m =>
        cases m with
        | changed uri version changes =>
          simp only [Standing.after]
          split <;> rfl
        | _ => rfl
    intro ns hns
    rw [Standing.trace, hsame] at hns
    rcases List.mem_cons.1 hns with rfl | hns
    · rfl
    · exact ih ns hns

end Traces

/-- A session sends the notices that its standing says, input by input, for all inputs and in
whichever order its jobs and tasks go on; in which order the documents are taken back at the end is
not promised. The standing is the phase of the session and the versions of its documents. No input
keeps the session busy for ever, and after a shutdown that was let through nothing is sent any
more. -/
theorem diagnostics_trace (defaultUrl : String) (settings : Prometheus.Settings)
    (inputs : List Input) :
    (∃ nss s, Plays (fresh defaultUrl settings) inputs nss s) ∧
    ∀ nss s, Plays (fresh defaultUrl settings) inputs nss s →
      List.Forall₂ List.Perm nss (Standing.trace {} inputs) ∧
      s.phase.period = (Standing.run {} inputs).period ∧
      (∀ uri, (s.workspace.store.lookup uri).map s.workspace.store.versionAt
        = (Standing.run {} inputs).ledger.version? uri) ∧
      (∀ (i : Input) network,
        Acc (Successor (around network)) ({ s with outbox := [] }.step i.action)) ∧
      ∀ phase ns nss' later s', s.phase.shutdown = .ok phase →
        Plays s (.message .shutdown :: later) (ns :: nss') s' → ∀ ns' ∈ nss', ns' = [] := by
  have hfresh := settled_fresh defaultUrl settings
  refine ⟨hfresh.plays inputs, fun nss s hplays => ?_⟩
  obtain ⟨rfl, hsettled⟩ := hplays.settled hfresh
  refine ⟨List.forall₂_same.2 fun _ _ => .refl _, hsettled.phase, fun uri => ?_,
    fun i network => hsettled.acc i network, fun phase ns nss' later s' hshutdown hlater => ?_⟩
  · rw [← Workspace.version?_ledger, hsettled.ledger]
  · have hactive : (Standing.run {} inputs).period = .active := by
      rw [← hsettled.phase, ← mem_open_iff]
      exact (Phase.advance_eq_ok_iff.1 hshutdown).1
    have hafter : (Standing.run {} inputs).after (.message .shutdown)
        = (Standing.run {} inputs).ending := if_pos hactive
    cases hlater with
    | cons network hworks hrest hlater =>
      obtain ⟨_, hover⟩ := hsettled.worked hworks hrest
      rw [hafter] at hover
      rw [(hlater.settled hover).1]
      exact Standing.trace_of_past rfl rfl later

example : Standing.trace {}
    [.message (.handshake none), .message (.opened ⟨"file:///a"⟩ "up" 1),
      .message (.opened ⟨"file:///a"⟩ "up" 2), .message (.changed ⟨"file:///a"⟩ 3 [⟨none, "up("⟩]),
      .message .shutdown, .endLifetime]
    = [[], [⟨⟨"file:///a"⟩, some 1, []⟩], [],
      [⟨⟨"file:///a"⟩, some 3, [Query.Finding.toDiagnostic ⟨⟨0, 2⟩, 1, .unclosed '('⟩]⟩],
      [⟨⟨"file:///a"⟩, some 3, []⟩], []] := by
  decide

end PromqlServer.Session
