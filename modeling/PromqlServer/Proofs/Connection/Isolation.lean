import PromqlServer.Connection.Listener
import PromqlServer.Proofs.Document.Solitary
import PromqlServer.Proofs.Session.Runs

/-!
The sessions of `serve_listener` do not get in each other's way, though all they cancel is in one
tree. A session sees the tree below its own node and what is cancelled at the root, and what it
cancels is below its node. So it goes on as if the other connections had never been there, whatever
happens to them, and it is over when the lifetime of the acceptor is (`sessions_isolated`).
-/

namespace PromqlServer.Connection

open PromqlServer.Document PromqlServer.Rpc

/-! ## The tree -/

section Trees

variable {n m : Nat} {tree : Cancellations} {scope : Scope}

theorem below_append (n : Nat) (xs ys : Cancellations) :
    below n (xs ++ ys) = below n xs ++ below n ys :=
  List.filterMap_append

/-- A node sees what is cancelled below it. -/
theorem below_own (n : Nat) (cs : Cancellations) : below n (cs.map (n :: ·)) = cs := by
  induction cs with
  | nil => rfl
  | cons c cs ih =>
    have hcons : below n ((c :: cs).map (n :: ·)) = c :: below n (cs.map (n :: ·)) := by
      simp [below]
    rw [hcons, ih]

/-- A node sees nothing of what is cancelled below another one. -/
theorem below_other (h : m ≠ n) (cs : Cancellations) : below n (cs.map (m :: ·)) = [] := by
  induction cs with
  | nil => rfl
  | cons c cs ih =>
    have hcons : below n ((c :: cs).map (m :: ·)) = below n (cs.map (m :: ·)) := by
      simp [below, h]
    rw [hcons, ih]

/-- What is cancelled for the node is what is cancelled of its part of the tree. -/
theorem isCancelled_below (n : Nat) (tree : Cancellations) (scope : Scope) :
    Scope.isCancelled (below n tree) scope = Scope.isCancelled tree (n :: scope) := by
  induction tree with
  | nil => rfl
  | cons root tree ih =>
    have hcons : Scope.isCancelled (root :: tree) (n :: scope)
        = (root.isPrefixOf (n :: scope) || Scope.isCancelled tree (n :: scope)) := rfl
    rw [hcons, ← ih]
    cases root with
    | nil => simp [below, Scope.isCancelled]
    | cons m root =>
      by_cases hm : m = n
      · simp [below, Scope.isCancelled, hm, List.isPrefixOf]
      · simp [below, Scope.isCancelled, hm, List.isPrefixOf]

/-- To cancel below a node is to cancel nothing elsewhere. -/
theorem isCancelled_elsewhere (h : ¬ [n] <+: scope) (cs tree : Cancellations) :
    Scope.isCancelled (cs.map (n :: ·) ++ tree) scope = Scope.isCancelled tree scope := by
  have hnone : ((cs.map (n :: ·)).any fun root => root.isPrefixOf scope) = false := by
    rw [List.any_eq_false]
    intro root hroot hprefix
    obtain ⟨c, -, rfl⟩ := List.mem_map.1 hroot
    rw [List.isPrefixOf_iff_prefix] at hprefix
    have hfirst : [n] <+: n :: c := ⟨c, rfl⟩
    exact h (hfirst.trans hprefix)
  rw [Scope.isCancelled, List.any_append, hnone, Bool.false_or, Scope.isCancelled]

/-- At the root all is cancelled. -/
theorem isCancelled_of_root (h : [] ∈ tree) (scope : Scope) :
    Scope.isCancelled tree scope = true := by
  rw [Scope.isCancelled, List.any_eq_true]
  exact ⟨[], h, rfl⟩

/-- What was cancelled before and after makes up all. -/
theorem since_append {earlier later : Cancellations} (h : earlier <:+ later) :
    since earlier later ++ earlier = later := by
  obtain ⟨new, rfl⟩ := h
  simp [since]

end Trees

end PromqlServer.Connection

/-! ## What is cancelled stays so -/

namespace PromqlServer.Document

theorem Turned.cancelled_suffix {s s' : Store} {id : Nat} {c : Call} {t : Turn}
    (h : Turned s id c t) (hs : t.store? = some s') : s.cancelled <:+ s'.cancelled := by
  cases h.cancelStep hs with
  | same hc => exact hc ▸ List.suffix_rfl
  | slot _ _ hs' => exact hs' ▸ List.suffix_cons ..
  | edition _ _ _ _ _ _ hs' => exact hs' ▸ List.suffix_cons ..
  | lifetime _ hs' => exact hs' ▸ List.suffix_cons ..

theorem Workspace.cancelled_suffix (w : Workspace) (a : Action) :
    w.store.cancelled <:+ (w.step a).store.cancelled := by
  cases a with
  | invoke | schedule | clear => exact List.suffix_rfl
  | cancel scope => exact List.suffix_cons ..
  | advance id =>
    rcases advance_store w id with hsame | ⟨c, hc⟩
    · exact hsame ▸ List.suffix_rfl
    · exact (turn_cases w.store id c).cancelled_suffix hc
  | analysed id analysis =>
    have hsame := analysed_store w id analysis
    exact hsame ▸ List.suffix_rfl

end PromqlServer.Document

namespace PromqlServer.Session

open PromqlServer.Document

theorem cancelled_suffix (s : Session) (a : Action) :
    s.workspace.store.cancelled <:+ (s.step a).workspace.store.cancelled := by
  cases a with
  | receive m =>
    have hr := receive_cases s m
    simp only [Session.step]
    generalize s.receive m = s' at hr
    cases hr with
    | alone outbox hs =>
      subst hs
      exact List.suffix_rfl
    | started phase job hs =>
      subst hs
      exact List.suffix_rfl
  | advance id =>
    simp only [Session.step]
    split
    · exact List.suffix_rfl
    · rename_i job _
      exact (shifted_advanceJob s id job).store ▸ List.suffix_rfl
  | document b => exact s.workspace.cancelled_suffix b
  | backend e => exact List.suffix_rfl
  | endLifetime => exact List.suffix_cons ..

end PromqlServer.Session

namespace PromqlServer.Rpc.Service

open PromqlServer.Session

/-- What was cancelled in the session stays so. -/
def Extends (s s' : Service) : Prop :=
  s.session.workspace.store.cancelled <:+ s'.session.workspace.store.cancelled

theorem Extends.of_session {s s' : Service} (h : s'.session = s.session) : Extends s s' := by
  unfold Extends
  exact h ▸ List.suffix_rfl

theorem deliver_session (s : Service) (m : Session.Outgoing) :
    (s.deliver m).session = s.session := by
  cases m with
  | response n r =>
    simp only [deliver]
    split <;> split <;> rfl
  | log level text =>
    simp only [deliver]
    split <;> rfl
  | diagnostics notice =>
    simp only [deliver]
    split <;> rfl

theorem forward_session (s : Service) : s.forward.session = { s.session with outbox := [] } := by
  have hfold : ∀ (ms : List Session.Outgoing) (s : Service),
      (ms.foldl deliver s).session = s.session := by
    intro ms
    induction ms with
    | nil => intro s; rfl
    | cons m ms ih => intro s; rw [List.foldl_cons, ih, deliver_session]
  exact hfold _ _

theorem extends_step (s : Service) (a : Session.Action) : Extends s (s.step a) := by
  rw [Extends, step, forward_session]
  exact s.session.cancelled_suffix a

theorem refuse_session (s : Service) (id : Option Id) (e : RpcError) :
    (s.refuse id e).session = s.session := by
  cases id <;> rfl

theorem extends_handle (s : Service) (id : Option Id) (m : Session.Message) :
    Extends s (s.handle id m) := by
  have hstep := extends_step
    { s with waiting := s.waiting ++ (id.toList.map fun id => (s.session.numbered, id)) }
    (.receive m)
  exact hstep

theorem extends_dispatch (s : Service) (m : Method) (c : Call) : Extends s (s.dispatch m c) := by
  unfold dispatch
  split
  · exact .of_session rfl
  · exact .of_session (refuse_session ..)
  · split
    · split
      · rename_i message _
        exact extends_handle s c.id message
      · exact .of_session (refuse_session ..)
    · exact .of_session (refuse_session ..)
    · exact .of_session rfl

theorem extends_shakeHands (s : Service) (m : Method) (c : Call) :
    Extends s (s.shakeHands m c) := by
  unfold shakeHands
  split
  · exact .of_session (refuse_session ..)
  · have hdispatch := extends_dispatch
      { s with stage := .opening, handshake := some s.session.numbered } m c
    simp only
    split
    · exact hdispatch
    · exact hdispatch

theorem extends_proceed (s : Service) (m : Method) (c : Call) : Extends s (s.proceed m c) := by
  unfold proceed
  split
  · have hdispatch := extends_dispatch { s with stage := .shutDown } m c
    simp only
    split
    · exact hdispatch
    · exact extends_dispatch s m c
  · exact .of_session (refuse_session ..)
  · exact .of_session (refuse_session ..)
  · exact .of_session (refuse_session ..)

theorem extends_receive (s : Service) (c : Call) : Extends s (s.receive c) := by
  unfold receive
  simp only
  split
  · exact .of_session rfl
  · split
    · exact .of_session rfl
    · split
      · exact .of_session (refuse_session ..)
      · split
        · unfold rejectUnknown
          split
          · exact .of_session rfl
          · exact .of_session (refuse_session ..)
        · split
          · exact extends_shakeHands s _ _
          · exact extends_proceed s _ _

end PromqlServer.Rpc.Service

namespace PromqlServer.Connection

open PromqlServer.Document PromqlServer.Rpc

namespace Peer

/-- The connection goes on: what was cancelled stays so, and it is not closed. -/
structure Onward (p p' : Peer) : Prop where
  cancelled : p.cancelled <:+ p'.cancelled
  closed : p'.closed = p.closed

theorem Onward.trans {p p' p'' : Peer} (h : Onward p p') (h' : Onward p' p'') : Onward p p'' :=
  ⟨h.cancelled.trans h'.cancelled, h'.closed.trans h.closed⟩

theorem onward_accept (p : Peer) (m : Except Session.RpcError Incoming) :
    Onward p (p.accept m) := by
  unfold accept
  split
  · exact ⟨List.suffix_rfl, rfl⟩
  · exact ⟨List.suffix_rfl, rfl⟩
  · split
    · exact ⟨List.suffix_rfl, rfl⟩
    · exact ⟨p.service.extends_receive _, rfl⟩

theorem onward_readWithin (fuel : Nat) (p : Peer) : Onward p (readWithin fuel p) := by
  induction fuel generalizing p with
  | zero => exact ⟨List.suffix_rfl, rfl⟩
  | succ fuel ih =>
    unfold readWithin
    split
    · exact ⟨List.suffix_rfl, rfl⟩
    · split
      · exact ⟨List.suffix_rfl, rfl⟩
      · rename_i reader message _
        have hread : Onward p { p with reader } := ⟨List.suffix_rfl, rfl⟩
        exact hread.trans ((onward_accept _ message).trans (ih _))

theorem onward_receive (p : Peer) (bytes : Bytes) : Onward p (p.receive bytes) := by
  unfold receive
  split
  · exact ⟨List.suffix_rfl, rfl⟩
  · have hfed : Onward p { p with reader := p.reader.feed bytes } := ⟨List.suffix_rfl, rfl⟩
    exact hfed.trans (onward_readWithin _ _)

theorem onward_update (p : Peer) (a : Session.Action) : Onward p (p.update (·.step a)) :=
  ⟨Service.extends_step { p.service with outbox := [] } a, rfl⟩

/-- The end of a connection is the end of the lifetime of its session. -/
theorem close_eq (p : Peer) : p.close.closed = true ∧
    p.close.cancelled = if p.closed then p.cancelled else [] :: p.cancelled := by
  unfold close
  cases hclosed : p.closed with
  | true => exact ⟨hclosed, rfl⟩
  | false =>
    refine ⟨rfl, ?_⟩
    have hstep := Service.forward_session
      { p.service with session := p.service.session.step .endLifetime }
    simp only [Bool.false_eq_true, if_false, cancelled, Service.step, hstep]
    rfl

theorem step_cases (p : Peer) (e : Event) : Onward p (p.step e) ∨ p.step e = p.close := by
  cases e with
  | receive bytes => exact Or.inl (onward_receive p bytes)
  | endInput => exact Or.inl ⟨List.suffix_rfl, rfl⟩
  | disconnect => exact Or.inr rfl
  | advance a => exact Or.inl (onward_update p a)

theorem cancelled_suffix (p : Peer) (e : Event) : p.cancelled <:+ (p.step e).cancelled := by
  rcases p.step_cases e with h | h
  · exact h.cancelled
  · rw [h, p.close_eq.2]
    split
    · exact List.suffix_rfl
    · exact List.suffix_cons ..

end Peer

/-! ## Connections in the tree -/

namespace Listener

section Connections

variable {l l' : Listener} {n m : Nat} {p : Peer} {f : Peer → Peer}

theorem peer?_eq (l : Listener) (n : Nat) :
    l.peer? n = (Numbered.item? l.peers n).map fun p => p.within (below n l.cancelled) := by
  rw [peer?, Numbered.item?, Option.map_map]
  rfl

theorem cancelled_of_peer? (h : l.peer? n = some p) : p.cancelled = below n l.cancelled := by
  rw [peer?_eq] at h
  obtain ⟨q, -, rfl⟩ := Option.map_eq_some_iff.1 h
  rfl

/-- What comes about in a connection, as far as the listener is concerned. -/
theorem modify_eq (l : Listener) (n : Nat) (f : Peer → Peer) :
    ∃ cs : Cancellations, (l.modify n f).cancelled = cs.map (n :: ·) ++ l.cancelled ∧
      (l.modify n f).settings = l.settings ∧ (l.modify n f).stopped = l.stopped ∧
      ∀ k ≠ n, Numbered.item? (l.modify n f).peers k = Numbered.item? l.peers k := by
  unfold modify
  split
  · exact ⟨[], rfl, rfl, rfl, fun _ _ => rfl⟩
  · rename_i p _
    refine ⟨_, rfl, rfl, rfl, fun k hk => ?_⟩
    rw [Numbered.item?_replace, if_neg hk]

/-- A session goes on in the tree as it does by itself. -/
theorem peer?_modify (hf : ∀ p, p.cancelled <:+ (f p).cancelled) :
    (l.modify n f).peer? n = (l.peer? n).map f := by
  unfold modify
  cases hp : l.peer? n with
  | none => exact hp
  | some p =>
    have hcancelled := cancelled_of_peer? hp
    rw [peer?_eq] at hp
    obtain ⟨q, hq, -⟩ := Option.map_eq_some_iff.1 hp
    rw [peer?_eq, Numbered.item?_replace, if_pos rfl, hq, below_append, below_own, ← hcancelled,
      since_append (hf p)]
    rfl

/-- What an event of a connection cancels is below the node of the connection. -/
theorem cancelled_step (l : Listener) (n : Nat) (e : Peer.Event) :
    ∃ cs : Cancellations, (l.step (.peer n e)).cancelled = cs.map (n :: ·) ++ l.cancelled := by
  obtain ⟨cs, hcancelled, -⟩ := modify_eq l n (·.step e)
  exact ⟨cs, hcancelled⟩

theorem peer?_step (l : Listener) (n : Nat) (e : Peer.Event) :
    (l.step (.peer n e)).peer? n = (l.peer? n).map (·.step e) :=
  peer?_modify fun p => p.cancelled_suffix e

theorem peer?_modify_other (h : m ≠ n) : (l.modify m f).peer? n = l.peer? n := by
  obtain ⟨cs, hcancelled, -, -, hitem⟩ := modify_eq l m f
  rw [peer?_eq, peer?_eq, hitem n h.symm, hcancelled, below_append, below_other h,
    List.nil_append]

/-- The number of a connection that is accepted is not in use. -/
theorem item?_of_accepted (h : ¬ (l.stopped || (l.peer? n).isSome) = true) :
    Numbered.item? l.peers n = none := by
  simp only [Bool.or_eq_true, not_or, Option.not_isSome_iff_eq_none, peer?_eq,
    Option.map_eq_none_iff] at h
  exact h.2

/-- A connection that is accepted has a new session. -/
theorem peer?_connect (l : Listener) (m n : Nat) :
    (l.step (.connect m)).peer? n = l.peer? n ∨
      n = m ∧ (l.step (.connect m)).peer? n
        = some ((newPeer l.settings).within (below n l.cancelled)) := by
  simp only [step]
  split
  · exact Or.inl rfl
  · rename_i hfree
    simp only [peer?_eq]
    rw [Numbered.item?_concat _ _ _ (item?_of_accepted hfree)]
    by_cases hn : n = m
    · exact Or.inr ⟨hn, by rw [if_pos hn]; rfl⟩
    · exact Or.inl (by rw [if_neg hn])

end Connections

/-! ## A connection without the others -/

/-- The connection that an event belongs to; the end of the acceptor belongs to none. -/
def Event.connection? : Event → Option Nat
  | .connect n | .peer n _ => some n
  | .endLifetime | .stop => none

/-- The events of a connection and those of the acceptor. -/
def Event.concerns (n : Nat) (e : Event) : Bool := e.connection?.all fun m => m = n

/-- The lifetime of the acceptor is over. -/
def Event.isEnd : Event → Bool
  | .endLifetime | .stop => true
  | .connect _ | .peer _ _ => false

/-- Two listeners that are the same to one connection. -/
structure Agree (n : Nat) (l l' : Listener) : Prop where
  settings : l.settings = l'.settings
  stopped : l.stopped = l'.stopped
  item : Numbered.item? l.peers n = Numbered.item? l'.peers n
  tree : below n l.cancelled = below n l'.cancelled

section Agree

variable {l l' : Listener} {n m : Nat} {e : Event}

theorem Agree.peer? (h : Agree n l l') : l.peer? n = l'.peer? n := by
  rw [peer?_eq, peer?_eq, h.item, h.tree]

theorem Agree.modify (h : Agree n l l') (f : Peer → Peer) :
    Agree n (l.modify n f) (l'.modify n f) := by
  have hpeer := h.peer?
  unfold Listener.modify
  cases hp : l.peer? n with
  | none =>
    rw [← hpeer, hp]
    exact h
  | some p =>
    rw [← hpeer, hp]
    refine ⟨h.settings, h.stopped, ?_, ?_⟩
    · simp only [Numbered.item?_replace, h.item]
    · simp only [below_append, h.tree]

theorem Agree.connect (h : Agree n l l') :
    Agree n (l.step (.connect n)) (l'.step (.connect n)) := by
  simp only [Listener.step, h.stopped, h.peer?]
  split
  · exact h
  · rename_i hfree
    have hnone' := item?_of_accepted hfree
    have hnone : Numbered.item? l.peers n = none := h.item.trans hnone'
    refine ⟨h.settings, rfl, ?_, h.tree⟩
    rw [Numbered.item?_concat _ _ _ hnone, Numbered.item?_concat _ _ _ hnone', if_pos rfl,
      if_pos rfl, h.settings]

/-- Both go on by an event of the connection or of the acceptor. -/
theorem Agree.step (h : Agree n l l') (hc : e.concerns n = true) :
    Agree n (l.step e) (l'.step e) := by
  cases e with
  | connect m =>
    obtain rfl : m = n := by simpa [Event.concerns, Event.connection?] using hc
    exact h.connect
  | peer m e =>
    obtain rfl : m = n := by simpa [Event.concerns, Event.connection?] using hc
    exact h.modify _
  | endLifetime => exact ⟨h.settings, h.stopped, h.item, congrArg ([] :: ·) h.tree⟩
  | stop => exact ⟨h.settings, rfl, h.item, congrArg ([] :: ·) h.tree⟩

/-- One goes on by an event of another connection. -/
theorem Agree.aside (h : Agree n l l') (hc : e.concerns n = false) : Agree n (l.step e) l' := by
  cases e with
  | connect m =>
    have hm : m ≠ n := by simpa [Event.concerns, Event.connection?] using hc
    simp only [Listener.step]
    split
    · exact h
    · rename_i hfree
      refine ⟨h.settings, h.stopped, ?_, h.tree⟩
      rw [Numbered.item?_concat _ _ _ (item?_of_accepted hfree), if_neg hm.symm]
      exact h.item
  | peer m e =>
    have hm : m ≠ n := by simpa [Event.concerns, Event.connection?] using hc
    obtain ⟨-, -, hsettings, hstopped, hpeers⟩ := modify_eq l m (·.step e)
    obtain ⟨cs, hcancelled⟩ := cancelled_step l m e
    have hitem := (hpeers n hm.symm).trans h.item
    refine ⟨hsettings.trans h.settings, hstopped.trans h.stopped, hitem, ?_⟩
    rw [hcancelled, below_append, below_other hm, List.nil_append, h.tree]
  | endLifetime => cases hc
  | stop => cases hc

theorem Agree.run (h : Agree n l l') (events : List Event) :
    Agree n (l.run events) (l'.run (events.filter (Event.concerns n))) := by
  induction events generalizing l l' with
  | nil => exact h
  | cons e es ih =>
    cases hc : e.concerns n with
    | true =>
      rw [List.filter_cons_of_pos hc]
      exact ih (h.step hc)
    | false =>
      rw [List.filter_cons_of_neg (by simp [hc])]
      exact ih (h.aside hc)

end Agree

/-! ## The end of sessions -/

section Ends

variable {l : Listener} {n : Nat} {p : Peer}

/-- What is cancelled in the tree stays so. -/
theorem cancelled_subset (l : Listener) (e : Event) : l.cancelled ⊆ (l.step e).cancelled := by
  cases e with
  | connect m =>
    simp only [step]
    split <;> exact List.Subset.refl _
  | peer m e =>
    obtain ⟨cs, hcancelled⟩ := cancelled_step l m e
    rw [hcancelled]
    exact List.subset_append_right ..
  | endLifetime => exact List.subset_cons_self ..
  | stop => exact List.subset_cons_self ..

/-- The end of the acceptor's lifetime is at the root of the tree, for good. -/
theorem root_of_isEnd (events : List Event)
    (h : [] ∈ l.cancelled ∨ events.any Event.isEnd = true) : [] ∈ (l.run events).cancelled := by
  induction events generalizing l with
  | nil => exact h.resolve_right (by simp)
  | cons e es ih =>
    refine ih ?_
    rcases h with hroot | hend
    · exact Or.inl (cancelled_subset l e hroot)
    · rw [List.any_cons, Bool.or_eq_true] at hend
      rcases hend with hend | hend
      · cases e with
        | connect | peer => cases hend
        | endLifetime | stop => exact Or.inl (List.mem_cons_self ..)
      · exact Or.inr hend

theorem root_below (h : [] ∈ l.cancelled) (hp : l.peer? n = some p) : [] ∈ p.cancelled := by
  rw [cancelled_of_peer? hp]
  exact List.mem_filterMap.2 ⟨[], h, rfl⟩

/-- The lifetime of the session of a closed connection is over. -/
def Ended (l : Listener) : Prop := ∀ n p, l.peer? n = some p → p.closed = true → [] ∈ p.cancelled

theorem Ended.step (h : Ended l) (e : Event) : Ended (l.step e) := by
  intro n p hp hclosed
  cases e with
  | connect m =>
    rcases peer?_connect l m n with hsame | ⟨-, hnew⟩
    · exact h n p (hsame ▸ hp) hclosed
    · rw [hnew] at hp
      cases hp
      cases hclosed
  | peer m e =>
    by_cases hm : m = n
    · subst hm
      rw [peer?_step] at hp
      obtain ⟨q, hq, rfl⟩ := Option.map_eq_some_iff.1 hp
      rcases q.step_cases e with honward | hclose
      · rw [honward.closed] at hclosed
        exact honward.cancelled.subset (h m q hq hclosed)
      · rw [hclose, q.close_eq.2]
        split
        · rename_i hold
          exact h m q hq hold
        · exact List.mem_cons_self ..
    · have hsame : (l.step (.peer m e)).peer? n = l.peer? n := peer?_modify_other hm
      exact h n p (hsame ▸ hp) hclosed
  | endLifetime | stop => exact root_below (List.mem_cons_self ..) hp

theorem Ended.run (h : Ended l) (events : List Event) : Ended (l.run events) := by
  induction events generalizing l with
  | nil => exact h
  | cons e es ih => exact ih (h.step e)

end Ends

/-- Each session is what it would be if there were no other connections, and goes on as it does by
itself. An event of a connection cancels nothing but what is below its own node; when a connection
is closed, all that is below its node is cancelled; and when the lifetime of the acceptor is over,
all of every session is. -/
theorem sessions_isolated (settings : Settings) (events : List Event) :
    let l := ({ settings } : Listener).run events
    (∀ n, l.peer? n
      = (({ settings } : Listener).run (events.filter (Event.concerns n))).peer? n) ∧
    (∀ n e, (l.step (.peer n e)).peer? n = (l.peer? n).map (·.step e)) ∧
    (∀ n e scope, e.connection? = some n → ¬ [n] <+: scope →
      Scope.isCancelled (l.step e).cancelled scope = Scope.isCancelled l.cancelled scope) ∧
    (∀ n p scope, l.peer? n = some p → p.closed = true →
      Scope.isCancelled l.cancelled (n :: scope) = true) ∧
    (events.any Event.isEnd = true → ∀ n p scope, l.peer? n = some p →
      p.service.session.workspace.store.isCancelled scope = true) := by
  intro l
  refine ⟨fun n => ?_, fun n e => peer?_step l n e, fun n e scope he hscope => ?_,
    fun n p scope hp hclosed => ?_, fun hend n p scope hp => ?_⟩
  · have hfresh : Agree n ({ settings } : Listener) { settings } := ⟨rfl, rfl, rfl, rfl⟩
    exact (hfresh.run events).peer?
  · cases e with
    | connect m =>
      simp only [step]
      split <;> rfl
    | peer m e =>
      cases he
      obtain ⟨cs, hcancelled⟩ := cancelled_step l n e
      rw [hcancelled, isCancelled_elsewhere hscope]
    | endLifetime | stop => cases he
  · have hfresh : Ended ({ settings } : Listener) := fun n p hp => by cases hp
    have hover := hfresh.run events n p hp hclosed
    rw [cancelled_of_peer? hp] at hover
    rw [← isCancelled_below]
    exact isCancelled_of_root hover scope
  · exact isCancelled_of_root (root_below (root_of_isEnd events (Or.inr hend)) hp) scope

/-- Two clients connect and open their sessions. -/
def pair : List Event :=
  [.connect 0, .connect 1, .peer 0 (.advance (.receive (.handshake none))),
    .peer 1 (.advance (.receive (.handshake none)))]

/-- One of them goes, and the other one does not notice until the server ends. -/
theorem sessions_isolated_pair :
    let l := ({} : Listener).run pair
    let events := pair ++ [.peer 0 .disconnect]
    (l.step (.peer 0 .disconnect)).peer? 1
      = (({} : Listener).run (events.filter (Event.concerns 1))).peer? 1 ∧
    Scope.isCancelled (l.step (.peer 0 .disconnect)).cancelled [0, 0] = true ∧
    Scope.isCancelled (l.step (.peer 0 .disconnect)).cancelled [1] = false ∧
    ∃ p, (l.step .endLifetime).peer? 1 = some p ∧
      p.service.session.workspace.store.isCancelled [0] = true := by
  intro l events
  have hrun : ∀ e, ({} : Listener).run (pair ++ [e]) = l.step e := fun e =>
    List.foldl_append
  obtain ⟨halone, -, -, hclosed, -⟩ := sessions_isolated {} (pair ++ [.peer 0 .disconnect])
  obtain ⟨-, -, helsewhere, -⟩ := sessions_isolated {} pair
  obtain ⟨-, -, -, -, hend⟩ := sessions_isolated {} (pair ++ [.endLifetime])
  rw [hrun] at halone hclosed hend
  refine ⟨halone 1, ?_, ?_, ?_⟩
  · have hpeer : ((l.step (.peer 0 .disconnect)).peer? 0).map Peer.closed = some true := by
      decide +kernel
    obtain ⟨p, hp, hover⟩ := Option.map_eq_some_iff.1 hpeer
    exact hclosed 0 p [0] hp hover
  · rw [helsewhere 0 (.peer 0 .disconnect) [1] rfl (by decide)]
    decide +kernel
  · have hpeer : ((l.step .endLifetime).peer? 1).isSome = true := by decide +kernel
    obtain ⟨p, hp⟩ := Option.isSome_iff_exists.1 hpeer
    exact ⟨p, hp, hend (by decide) 1 p [0] hp⟩

end Listener

end PromqlServer.Connection
