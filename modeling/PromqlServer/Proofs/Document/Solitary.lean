import PromqlServer.Proofs.Document.Tracking
import PromqlServer.Proofs.Query.Scans

/-!
A workspace in which one task is under way, with the syntax checker as the provider. What is left to
do is fixed then, and so are the store that it comes to and the notices that are sent on the way:
`ends_invoke` says which, for every request to the document cache.
-/

namespace PromqlServer.Document

open PromqlServer.Query

/-- What a publication of an edition reports. -/
def Edition.report (e : Edition) : Report := ⟨e.uri, e.version, faults e.content⟩

namespace Workspace

/-- One task is under way, or none. The workspace comes to rest in `n` steps, with the store `s`,
after the notices `ns`. -/
inductive Ends : Nat → Workspace → Store → List Notice → Prop
  | idle {w : Workspace} (h : w.tasks = []) : Ends 0 w w.store []
  | step {n id : Nat} {w : Workspace} {t : Task} {a : Action} {s : Store} {ns : List Notice}
      (ht : w.tasks = [(id, t)]) (ha : w.nextOf? {} id = some a)
      (h : Ends n (w.step a).takeOutbox.2 s ns) : Ends (n + 1) w s ((w.step a).outbox ++ ns)

section Ends

variable {n id : Nat} {w : Workspace} {s : Store} {ns : List Notice}

/-- Whatever can be done is the next step. -/
theorem Ends.next (h : Ends n w s ns) {a : Action} (ha : w.nextOf? {} id = some a) :
    ∃ m ns', n = m + 1 ∧ ns = (w.step a).outbox ++ ns' ∧ Ends m (w.step a).takeOutbox.2 s ns' := by
  cases h with
  | idle h =>
    rw [nextOf?_of_idle {} id h] at ha
    cases ha
  | @step m id' _ t a' _ ns' ht ha' h =>
    by_cases hid : id' = id
    · subst hid
      rw [ha'] at ha
      cases ha
      exact ⟨m, ns', rfl, rfl, h⟩
    · have hnone : w.task? id = none := by simp [Workspace.task?, ht, hid]
      rw [Workspace.nextOf?, hnone] at ha
      cases ha

/-- Nothing is left to do when nothing can be done. -/
theorem Ends.rest (h : Ends n w s ns) (hrest : w.movable? {} = none) :
    n = 0 ∧ w.tasks = [] ∧ w.store = s ∧ ns = [] := by
  cases h with
  | idle h => exact ⟨rfl, h, rfl, rfl⟩
  | @step _ id _ _ _ _ _ ht ha =>
    simp [movable?, ht, ha] at hrest

theorem takeOutbox_of_nil (h : w.outbox = []) : w.takeOutbox.2 = w := by
  cases w
  simp only at h
  simp [takeOutbox, h]

/-- A step that sends nothing. -/
theorem Ends.silent {t : Task} {a : Action} (ht : w.tasks = [(id, t)])
    (ha : w.nextOf? {} id = some a) (hout : (w.step a).outbox = []) (h : Ends n (w.step a) s ns) :
    Ends (n + 1) w s ns := by
  have hstep := Ends.step (s := s) (n := n) ht ha (by rw [takeOutbox_of_nil hout]; exact h)
  rwa [hout, List.nil_append] at hstep

/-! ## What follows from a reply -/

/-- The client is told to forget documents. -/
theorem ends_clearing (ds : List Closed) (ht : w.tasks = [(id, .clearing ds)])
    (hout : w.outbox = []) : Ends (ds.length + 1) w w.store (ds.map Closed.notice) := by
  induction ds generalizing w with
  | nil =>
    have htask : w.task? id = some (.clearing []) := by simp [Workspace.task?, ht]
    have hstep : w.step (.advance id) = w.finish id := by simp only [step, advance, htask]
    have hidle : (w.step (.advance id)).tasks = [] := by simp [hstep, finish, ht]
    have hnext : w.nextOf? {} id = some (.advance id) := by simp [Workspace.nextOf?, htask, next?]
    have hends := Ends.idle hidle
    rw [hstep] at hends
    exact .silent ht hnext (by rw [hstep]; exact hout) (by rw [hstep]; exact hends)
  | cons d ds ih =>
    have htask : w.task? id = some (.clearing (d :: ds)) := by simp [Workspace.task?, ht]
    have hstep : w.step (.advance id) = (w.clear d.notice).update id (.clearing ds) := by
      simp only [step, advance, htask]
    have hnext : w.nextOf? {} id = some (.advance id) := by simp [Workspace.nextOf?, htask, next?]
    have hsent : (w.step (.advance id)).outbox = [d.notice] := by
      simp [hstep, update, clear, send, emit, hout]
    have hrest := ih (w := (w.step (.advance id)).takeOutbox.2)
      (by simp [takeOutbox, hstep, update, clear, send, emit, ht]) rfl
    have hstore : (w.step (.advance id)).takeOutbox.2.store = w.store := by
      rw [hstep]
      rfl
    rw [hstore] at hrest
    have hends := Ends.step ht hnext hrest
    rwa [hsent] at hends

end Ends

/-! ## A publication -/

/-- Only one publication is under way, and it is under the lock of its document. -/
structure Commits (w : Workspace) (id : Nat) (e : Edition) (s : Store) (c : Call) : Prop where
  store : w.store = s
  tasks : w.tasks = [(id, .publication e (.committing c))]
  outbox : w.outbox = []

/-- What a publication sends in a turn. -/
def sends : Call → List Notice
  | .publish _ report => [report.notice]
  | _ => []

section Commits

variable {n id : Nat} {w : Workspace} {e : Edition} {s s' s'' : Store} {c c' : Call} {reply : Reply}
  {ns : List Notice}

theorem Commits.task? (h : Commits w id e s c) :
    w.task? id = some (.publication e (.committing c)) := by
  simp [Workspace.task?, h.tasks]

theorem Commits.nextOf? (h : Commits w id e s c) (hne : s.turn id c ≠ .blocked) :
    w.nextOf? {} id = some (.advance id) := by
  rw [Workspace.nextOf?, h.task?]
  exact next?_of_call .answer (by rw [h.store]; exact hne)

theorem Commits.next (h : Commits w id e s c) (ht : s.turn id c = .next s' c')
    (hrest : ∀ v, Commits v id e s' c' → Ends n v s'' ns) : Ends (n + 1) w s'' (sends c ++ ns) := by
  have hnext := h.nextOf? (by rw [ht]; simp)
  have htask := h.task?
  obtain ⟨rfl, htasks, hout⟩ := h
  obtain ⟨v, hv, hstep⟩ : ∃ v : Workspace, v = { w with outbox := w.outbox ++ sends c } ∧
      w.step (.advance id)
        = ((v.note id c).withStore s').update id (.publication e (.committing c')) := by
    refine ⟨_, rfl, ?_⟩
    simp only [step, advance, htask, advanceCommit, ht]
    cases c <;> simp [sends, send]
  have hsent : (w.step (.advance id)).outbox = sends c := by
    rw [hstep, note_eq, hv]
    simp [update, withStore, hout]
  rw [← hsent]
  refine .step htasks hnext (hrest _ ⟨?_, ?_, rfl⟩)
  · rw [hstep]
    rfl
  · rw [hstep, note_eq, hv]
    simp [takeOutbox, update, withStore, htasks]

theorem Commits.done (h : Commits w id e s c) (ht : s.turn id c = .done s' reply) :
    Ends 1 w s' [] := by
  have hnext := h.nextOf? (by rw [ht]; simp)
  have hstep : w.step (.advance id)
      = (((w.note id c).withStore s').emit (.returned id reply)).finish id := by
    simp only [step, advance, h.task?, advanceCommit, h.store, ht]
  have hidle : (w.step (.advance id)).tasks = [] := by
    rw [hstep, note_eq]
    simp [finish, emit, withStore, h.tasks]
  have hstore : (w.step (.advance id)).store = s' := by
    rw [hstep]
    rfl
  have hends := Ends.idle hidle
  rw [hstore] at hends
  refine .silent h.tasks hnext ?_ hends
  rw [hstep, note_eq]
  exact h.outbox

/-- The findings for the current edition of a document are published and recorded. -/
theorem Commits.ends {report : Report} (h : Commits w id e s (.arrive e.slot (.commit e report)))
    (hq : s.Quiet) (he : s.Hands e) :
    Ends 4 w (s.record e.slot report) [report.notice] := by
  obtain ⟨d, hd, hversion, hlive⟩ := he
  have hqueue := hq.queues _ d hd
  have hcheck : (s.arrive id e.slot).turn id (.queued e.slot (.commit e report))
      = .next (s.arrive id e.slot) (.publish e.slot report) := by
    have hlive' : (s.arrive id e.slot).isCancelled e.scope = false := hlive
    simp [Store.turn, Store.held_arrive id hd hqueue, Store.check, hlive', hversion]
  have hrecord : (s.arrive id e.slot).turn id (.publishing e.slot report)
      = .done (s.record e.slot report) .committed := by
    rw [← Store.record_arrive id report fun d' hd' => hq.queues _ d' hd']
    rfl
  have hpublish : ∀ v, Commits v id e (s.arrive id e.slot) (.publish e.slot report) →
      Ends 2 v (s.record e.slot report) [report.notice] :=
    fun v hv => hv.next rfl fun x hx => hx.done hrecord
  exact h.next rfl fun u hu => hu.next hcheck hpublish

end Commits

theorem ends_publication {w : Workspace} {id : Nat} {e : Edition}
    (ht : w.tasks = [(id, .publication e .ready)]) (hout : w.outbox = []) (hq : w.store.Quiet)
    (he : w.store.Hands e) : Ends 6 w (w.store.record e.slot e.report) [e.report.notice] := by
  have hlive : w.store.isCancelled e.scope = false := by
    obtain ⟨d, _, _, hlive⟩ := he
    exact hlive
  have htask : w.task? id = some (.publication e .ready) := by simp [Workspace.task?, ht]
  obtain ⟨v, hv⟩ : ∃ v, v = w.update id (.publication e .analysing) := ⟨_, rfl⟩
  have hready : w.step (.advance id) = v := by
    simp only [step, advance, htask, hlive, Bool.false_eq_true, if_false, hv]
  have hvtasks : v.tasks = [(id, .publication e .analysing)] := by simp [hv, update, ht]
  have hvtask : v.task? id = some (.publication e .analysing) := by simp [Workspace.task?, hvtasks]
  have hvstore : v.store = w.store := by rw [hv]; rfl
  have hvout : v.outbox = [] := by rw [hv]; exact hout
  have hfound : v.nextOf? {} id = some (.analysed id (.found (faults e.content))) := by
    rw [Workspace.nextOf?, hvtask]
    simp only [Option.bind_some, next?, hvstore, hlive, Provider.result?, Provider.lexical,
      diagnostics_eq_ok]
    rfl
  have hcommit : Commits (v.step (.analysed id (.found (faults e.content)))) id e w.store
      (.arrive e.slot (.commit e e.report)) := by
    have hstep : v.step (.analysed id (.found (faults e.content)))
        = (v.emit (.invoked id (.commit e e.report))).update id
          (.publication e (.committing (.arrive e.slot (.commit e e.report)))) := by
      simp only [step, analysed, hvtask]
      rfl
    rw [hstep]
    exact ⟨hvstore, by simp [update, emit, hvtasks], hvout⟩
  have hanalysed := Ends.silent hvtasks hfound hcommit.outbox (hcommit.ends hq he)
  have hnext : w.nextOf? {} id = some (.advance id) := by simp [Workspace.nextOf?, htask, next?]
  exact .silent ht hnext (by rw [hready]; exact hvout) (by rw [hready]; exact hanalysed)

/-! ## A request -/

/-- What a reply comes to: the store in the end, and what the client is told. -/
def outcome (s : Store) : Purpose → Reply → Store × List Notice
  | .analyse, .opened e => (s.record e.slot e.report, [e.report.notice])
  | .clear, .closed d => (s, [d.notice])
  | .clear, .drained ds => (s, ds.map Closed.notice)
  | _, _ => (s, [])

section Requests

variable {w : Workspace} {id n : Nat} (purpose : Purpose) {reply : Reply}

/-- What follows from a reply comes to its end. -/
theorem ends_follow {t : Task} (ht : w.tasks = [(id, t)]) (hout : w.outbox = [])
    (hq : w.store.Quiet) (he : ∀ e, reply = .opened e → w.store.Hands e) :
    ∃ n, Ends n (w.follow id purpose reply) (outcome w.store purpose reply).1
      (outcome w.store purpose reply).2 := by
  have hfinish : ∃ n, Ends n (w.finish id) w.store [] :=
    ⟨0, .idle (w := w.finish id) (by simp [finish, ht])⟩
  have hclear : ∀ ds, ∃ n, Ends n (w.update id (.clearing ds)) w.store (ds.map Closed.notice) := by
    intro ds
    have hds : (w.update id (.clearing ds)).tasks = [(id, .clearing ds)] := by simp [update, ht]
    exact ⟨_, ends_clearing ds hds hout⟩
  cases purpose with
  | answer => exact hfinish
  | analyse =>
    cases reply with
    | opened e =>
      have hready : ((w.finish id).schedule e).tasks = [(w.started, .publication e .ready)] := by
        simp [schedule, start, emit, finish, ht]
      exact ⟨_, ends_publication hready hout hq (he e rfl)⟩
    | _ => exact hfinish
  | clear =>
    cases reply with
    | closed d => exact hclear [d]
    | drained ds => exact hclear ds
    | _ => exact hfinish

theorem ends_of_completes {s s' : Store} {c : Call} (h : Completes id n s c s' reply)
    (hw : Alone w id purpose s c) (hout : w.outbox = []) (hq : s'.Quiet)
    (he : ∀ e, reply = .opened e → s'.Hands e) :
    ∃ m, Ends m w (outcome s' purpose reply).1 (outcome s' purpose reply).2 := by
  induction h generalizing w with
  | @done s s' c reply ht =>
    obtain ⟨v, hstep, hv, _, hvout, _⟩ := hw.done ht
    rw [hout] at hvout
    obtain rfl := hv.store
    obtain ⟨m, hm⟩ := ends_follow purpose hv.tasks hvout hq he
    rw [← hstep] at hm
    have hsilent : (w.step (.advance id)).outbox = [] := by
      rw [hstep]
      unfold follow
      split <;> exact hvout
    exact ⟨m + 1, .silent hw.tasks (hw.nextOf? (by rw [ht]; simp)) hsilent hm⟩
  | next ht _ ih =>
    obtain ⟨halone, _, hnext⟩ := hw.next ht
    rw [hout] at hnext
    obtain ⟨m, hm⟩ := ih halone hnext hq he
    exact ⟨m + 1, .silent hw.tasks (hw.nextOf? (by rw [ht]; simp)) hnext hm⟩

/-- A request on a workspace with nothing under way. -/
theorem ends_invoke {r : Request} {s : Store} (hidle : w.tasks = []) (hout : w.outbox = [])
    (hq : w.store.Quiet) (hr : w.store.Accepts r) (hp : w.store.perform r = (s, reply))
    (he : ∀ e, reply = .opened e → s.Hands e) :
    ∃ n, Ends n (w.invoke purpose r) (outcome s purpose reply).1 (outcome s purpose reply).2 := by
  obtain ⟨n, _, hc⟩ := Store.completes_perform hq w.started hr
  have hquiet := hq.perform r
  rw [hp] at hc hquiet
  have halone : Alone (w.invoke purpose r) w.started purpose w.store r.call :=
    ⟨rfl, by simp [invoke, emit, start, hidle]⟩
  exact ends_of_completes purpose hc halone hout hquiet he

end Requests

/-! ## Above the lifetime of the documents -/

/-- The store after a step of a task: it is what a turn leaves, or as it was. -/
theorem advance_store (w : Workspace) (id : Nat) : (w.advance id).store = w.store ∨
    ∃ c, (w.store.turn id c).store? = some (w.advance id).store := by
  unfold advance
  split
  · exact Or.inl rfl
  · rename_i purpose c _
    unfold advanceCall
    split
    · exact Or.inl rfl
    · rename_i s c' ht
      exact Or.inr ⟨c, by rw [ht]; rfl⟩
    · rename_i s reply ht
      refine Or.inr ⟨c, ?_⟩
      rw [ht]
      unfold follow
      split <;> rfl
  · exact Or.inl rfl
  · exact Or.inl rfl
  · split <;> exact Or.inl rfl
  · split <;> exact Or.inl rfl
  · rename_i e c _
    unfold advanceCommit
    split
    · exact Or.inl rfl
    · rename_i s c' ht
      exact Or.inr ⟨c, by rw [ht]; rfl⟩
    · rename_i s reply ht
      exact Or.inr ⟨c, by rw [ht]; rfl⟩

/-- What tasks do is a step of theirs or the end of an analysis. -/
theorem nextOf?_cases {w : Workspace} {env : Surroundings} {id : Nat} {a : Action}
    (ha : w.nextOf? env id = some a) : a = .advance id ∨ ∃ analysis, a = .analysed id analysis := by
  obtain ⟨t, _, ht⟩ := Option.bind_eq_some_iff.1 ha
  have hcall : ∀ purpose c, w.next? env id (.call purpose c) = some a → a = .advance id := by
    intro purpose c hc
    simp only [next?] at hc
    split at hc
    · cases hc
    · split at hc
      · cases hc
      · exact (Option.some.inj hc).symm
    · exact (Option.some.inj hc).symm
  cases t with
  | call purpose c => exact Or.inl (hcall purpose c ht)
  | clearing ds => exact Or.inl (Option.some.inj ht).symm
  | publication e stage =>
    cases stage with
    | ready => exact Or.inl (Option.some.inj ht).symm
    | committing c => exact Or.inl (hcall .answer c ht)
    | analysing =>
      simp only [next?] at ht
      split at ht
      · exact Or.inl (Option.some.inj ht).symm
      · obtain ⟨analysis, _, rfl⟩ := Option.map_eq_some_iff.1 ht
        exact Or.inr ⟨analysis, rfl⟩

theorem analysed_store (w : Workspace) (id : Nat) (analysis : Analysis) :
    (w.analysed id analysis).store = w.store := by
  unfold analysed
  split <;> rfl

/-- Tasks cancel nothing above the lifetime of the documents. -/
theorem step_above {w : Workspace} {env : Surroundings} {id : Nat} {a : Action}
    (ha : w.nextOf? env id = some a) {t : Scope} (ht : ¬ w.store.lifetime <+: t) :
    (w.step a).store.lifetime = w.store.lifetime ∧
      (w.step a).store.isCancelled t = w.store.isCancelled t := by
  have hbelow : ∀ x, w.store.lifetime <+: x → (w.store.cancel x).isCancelled t
      = w.store.isCancelled t := by
    intro x hx
    have hnot : x.isPrefixOf t = false := by
      rw [← Bool.not_eq_true, List.isPrefixOf_iff_prefix]
      exact fun hpre => ht (hx.trans hpre)
    simp [Store.isCancelled, Store.cancel, Scope.isCancelled, hnot]
  rcases nextOf?_cases ha with rfl | ⟨analysis, rfl⟩
  · rcases advance_store w id with hsame | ⟨c, hc⟩
    · exact ⟨congrArg Store.lifetime hsame, congrArg (Store.isCancelled · t) hsame⟩
    · have hturned := turn_cases w.store id c
      refine ⟨hturned.lifetime_eq hc, ?_⟩
      have hs : (w.step (.advance id)).store = (w.advance id).store := rfl
      rw [hs]
      cases hturned.cancelStep hc with
      | same hsame => simp only [Store.isCancelled, hsame]
      | slot k _ hk =>
        rw [hk]
        exact hbelow _ (Scope.prefix_child ..)
      | edition k d _ _ _ _ hk =>
        rw [hk]
        exact hbelow _ ((Scope.prefix_child ..).trans (Scope.prefix_child ..))
      | lifetime _ hk =>
        rw [hk]
        exact hbelow _ List.prefix_rfl
  · have hsame := analysed_store w id analysis
    exact ⟨congrArg Store.lifetime hsame, congrArg (Store.isCancelled · t) hsame⟩

end Workspace

end PromqlServer.Document
