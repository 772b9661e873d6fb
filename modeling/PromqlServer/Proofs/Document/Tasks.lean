import PromqlServer.Proofs.Document.Solitary

/-!
What a step does to the tasks of a workspace, to its history and to what is sent. `TaskStep` lists
the steps, of calls, of the clears after a `close` and of the publisher's `run`: the tasks that each
takes and the tasks that it leaves, the events that it adds and the notices that it sends
(`Stepped`). Calls are made for purposes, and only publications commit, so that all that is sent
stands in the history (`Suited.allSent`).
-/

namespace PromqlServer.Document

open PromqlServer.Query

/-- The reply brings closed documents. -/
def Reply.isClosing : Reply → Bool
  | .closed _ | .drained _ => true
  | _ => false

/-- The closed documents of a reply. -/
def Reply.documents : Reply → List Closed
  | .closed d => [d]
  | .drained ds => ds
  | _ => []

theorem Reply.documents_of_not_closing {r : Reply} (h : r.isClosing = false) :
    r.documents = [] := by
  cases r <;> first | rfl | cases h

namespace Workspace

/-- One step, as the store that it leaves, the tasks that it takes and leaves, the events that it
tells, the latest first, and the notices that it sends. -/
inductive TaskStep (w : Workspace) :
    Action → Store → List (Nat × Task) → List (Nat × Task) → List Event → List Notice → Prop
  | still {a : Action} : TaskStep w a w.store [] [] [] []
  | invoked {p : Purpose} {q : Request} : TaskStep w (.invoke p q) w.store []
      [(w.started, .call p q.call)] [.invoked w.started q] []
  | scheduled {e : Edition} : TaskStep w (.schedule e) w.store []
      [(w.started, .publication e .ready)] [.scheduled w.started e] []
  | cleared {n : Notice} : TaskStep w (.clear n) w.store [] [] [.cleared n] [n]
  | cancelled {scope : Scope} :
      TaskStep w (.cancel scope) (w.store.cancel scope) [] [] [.cancelled scope] []
  | next {id : Nat} {p : Purpose} {c c' : Call} {s : Store}
      (ht : Turned w.store id c (.next s c')) : TaskStep w (.advance id) s
      [(id, .call p c)] [(id, .call p c')] (c.notes id) []
  /-- An edition is handed out, and its publication starts. -/
  | opened {id : Nat} {c : Call} {s : Store} {e : Edition}
      (ht : Turned w.store id c (.done s (.opened e))) : TaskStep w (.advance id) s
      [(id, .call .analyse c)] [(w.started, .publication e .ready)]
      (.scheduled w.started e :: .returned id (.opened e) :: c.notes id) []
  /-- Documents are closed, and their clears have to be sent. -/
  | closed {id : Nat} {c : Call} {s : Store} {reply : Reply} (hr : reply.isClosing = true)
      (ht : Turned w.store id c (.done s reply)) : TaskStep w (.advance id) s
      [(id, .call .clear c)] [(id, .clearing reply.documents)]
      (.returned id reply :: c.notes id) []
  /-- Nothing follows from the reply. -/
  | finished {id : Nat} {p : Purpose} {c : Call} {s : Store} {reply : Reply}
      (hopen : p = .analyse → ∀ e, reply ≠ .opened e)
      (hclose : p = .clear → reply.isClosing = false)
      (ht : Turned w.store id c (.done s reply)) : TaskStep w (.advance id) s
      [(id, .call p c)] [] (.returned id reply :: c.notes id) []
  | clearSent {id : Nat} {d : Closed} {ds : List Closed} : TaskStep w (.advance id) w.store
      [(id, .clearing (d :: ds))] [(id, .clearing ds)] [.cleared d.notice] [d.notice]
  | clearsSent {id : Nat} : TaskStep w (.advance id) w.store [(id, .clearing [])] [] [] []
  | dropped {a : Action} {id : Nat} {e : Edition} {stage : Stage}
      (hstage : stage = .ready ∨ stage = .analysing) : TaskStep w a w.store
      [(id, .publication e stage)] [] [.dropped id] []
  | analysing {id : Nat} {e : Edition} (hlive : w.store.isCancelled e.scope = false) :
      TaskStep w (.advance id) w.store
      [(id, .publication e .ready)] [(id, .publication e .analysing)] [] []
  | found {id : Nat} {e : Edition} {ds : List Diagnostic} :
      TaskStep w (.analysed id (.found ds)) w.store [(id, .publication e .analysing)]
      [(id, .publication e (.committing (.arrive e.slot (.commit e ⟨e.uri, e.version, ds⟩))))]
      [.invoked id (.commit e ⟨e.uri, e.version, ds⟩)] []
  | committing {id : Nat} {e : Edition} {c c' : Call} {s : Store}
      (ht : Turned w.store id c (.next s c')) : TaskStep w (.advance id) s
      [(id, .publication e (.committing c))] [(id, .publication e (.committing c'))]
      (c.notes id) (sends c)
  | committed {id : Nat} {e : Edition} {c : Call} {s : Store} {reply : Reply}
      (ht : Turned w.store id c (.done s reply)) : TaskStep w (.advance id) s
      [(id, .publication e (.committing c))] [] (.returned id reply :: c.notes id) []

/-- The tasks, the history and what is sent, after a step that takes the tasks `before` and leaves
the tasks `after`. -/
structure Traded (w w' : Workspace) (before after : List (Nat × Task)) (es : List Event)
    (ns : List Notice) : Prop where
  tasks : ∃ rest, w.tasks.Perm (before ++ rest) ∧ w'.tasks.Perm (after ++ rest)
  started : w.started ≤ w'.started
  history : w'.history = es ++ w.history
  outbox : w'.outbox = w.outbox ++ ns

/-- What a step does to the tasks. -/
inductive Stepped (w : Workspace) (a : Action) (w' : Workspace) : Prop
  | intro {before after : List (Nat × Task)} {es : List Event} {ns : List Notice}
      (taskStep : TaskStep w a w'.store before after es ns)
      (traded : Traded w w' before after es ns)

/-- Each task has a number of its own. -/
def Discerned (w : Workspace) : Prop := Numbered.Distinct w.tasks w.started

theorem discerned_fresh (lifetime : Scope) : Discerned (fresh lifetime) :=
  ⟨by simp [fresh], by simp [fresh]⟩

section Steps

variable {w : Workspace} {id : Nat} {t : Task}

theorem Discerned.task?_iff (h : Discerned w) : w.task? id = some t ↔ (id, t) ∈ w.tasks :=
  Numbered.item?_eq_some_iff h.nodup

/-- The call of a task among the tasks. -/
theorem Discerned.callAt (h : Discerned w) (hm : (id, t) ∈ w.tasks) : w.callAt id = t.call? := by
  rw [Workspace.callAt, h.task?_iff.2 hm]
  rfl

theorem Discerned.mem_of_callAt (h : Discerned w) {c : Call} (hc : w.callAt id = some c) :
    ∃ t, (id, t) ∈ w.tasks ∧ t.call? = some c := by
  obtain ⟨t, ht, hcall⟩ := Option.bind_eq_some_iff.1 hc
  exact ⟨t, h.task?_iff.1 ht, hcall⟩

/-! ## How tasks are traded -/

/-- A workspace with another store, and with more told and sent. -/
def amended (w : Workspace) (s : Store) (es : List Event) (ns : List Notice) : Workspace :=
  { w with store := s, history := es ++ w.history, outbox := w.outbox ++ ns }

section Amended

variable (s : Store) (es : List Event) (ns : List Notice)

theorem emit_eq_amended (w : Workspace) (e : Event) : w.emit e = w.amended w.store [e] [] := by
  simp [emit, amended]

theorem note_eq_amended (w : Workspace) (id : Nat) (c : Call) :
    (w.note id c).withStore s = w.amended s (c.notes id) [] := by
  rw [note_eq]
  simp [withStore, amended]

theorem returned_eq_amended (w : Workspace) (id : Nat) (c : Call) (reply : Reply) :
    ((w.note id c).withStore s).emit (.returned id reply)
      = w.amended s (.returned id reply :: c.notes id) [] := by
  rw [note_eq]
  simp [withStore, emit, amended]

theorem traded_amended (w : Workspace) :
    Traded w (w.amended s es ns) [] [] es ns :=
  ⟨⟨w.tasks, .refl _, .refl _⟩, Nat.le_refl _, rfl, rfl⟩

theorem traded_start (w : Workspace) (t : Task) :
    Traded w ((w.amended s es ns).start t) [] [(w.started, t)] es ns :=
  ⟨⟨w.tasks, .refl _, List.perm_append_singleton _ _⟩, Nat.le_succ _, rfl, rfl⟩

theorem Discerned.traded_update (h : Discerned w) (hm : (id, t) ∈ w.tasks) (t' : Task) :
    Traded w ((w.amended s es ns).update id t') [(id, t)] [(id, t')] es ns := by
  obtain ⟨rest, hbefore, hreplace, _⟩ := Numbered.perm_of_mem h.nodup hm
  exact ⟨⟨rest, hbefore, hreplace t'⟩, Nat.le_refl _, rfl, rfl⟩

theorem Discerned.traded_finish (h : Discerned w) (hm : (id, t) ∈ w.tasks) :
    Traded w ((w.amended s es ns).finish id) [(id, t)] [] es ns := by
  obtain ⟨rest, hbefore, _, herase⟩ := Numbered.perm_of_mem h.nodup hm
  exact ⟨⟨rest, hbefore, herase⟩, Nat.le_refl _, rfl, rfl⟩

/-- A task ends and another one starts. -/
theorem Discerned.traded_pass (h : Discerned w) (hm : (id, t) ∈ w.tasks) (t' : Task) :
    Traded w (((w.amended s es ns).finish id).start t') [(id, t)] [(w.started, t')] es ns := by
  obtain ⟨rest, hbefore, _, herase⟩ := Numbered.perm_of_mem h.nodup hm
  refine ⟨⟨rest, hbefore, ?_⟩, Nat.le_succ _, rfl, rfl⟩
  exact (List.perm_append_singleton _ _).trans (herase.cons _)

end Amended

/-! ## Steps -/

theorem Stepped.still (w : Workspace) (a : Action) : Stepped w a w := by
  have htraded := traded_amended w.store [] [] w
  have hsame : w.amended w.store [] [] = w := by simp [amended]
  rw [hsame] at htraded
  exact .intro .still htraded

theorem Discerned.advanceCall (h : Discerned w) {p : Purpose} {c : Call}
    (hm : (id, .call p c) ∈ w.tasks) : Stepped w (.advance id) (w.advanceCall id p c) := by
  have hturned := turn_cases w.store id c
  unfold Workspace.advanceCall
  cases hturn : w.store.turn id c with
  | blocked => exact .still w _
  | next s c' =>
    rw [hturn] at hturned
    simp only [note_eq_amended]
    exact .intro (.next hturned) (h.traded_update _ _ _ hm _)
  | done s reply =>
    rw [hturn] at hturned
    simp only [returned_eq_amended, follow]
    split
    · -- the new edition is analysed: a publication starts after the call is over
      rename_i e
      exact .intro (.opened hturned) (h.traded_pass s
        (.scheduled w.started e :: .returned id (.opened e) :: c.notes id) [] hm _)
    · exact .intro (.closed rfl hturned) (h.traded_update _ _ _ hm _)
    · exact .intro (.closed rfl hturned) (h.traded_update _ _ _ hm _)
    · rename_i hopen hclosed hdrained
      refine .intro (.finished ?_ ?_ hturned) (h.traded_finish _ _ _ hm)
      · rintro rfl e rfl
        exact hopen e rfl rfl
      · rintro rfl
        cases reply with
        | closed d => exact absurd rfl (hclosed d rfl)
        | drained ds => exact absurd rfl (hdrained ds rfl)
        | _ => rfl

theorem Discerned.advanceCommit (h : Discerned w) {e : Edition} {c : Call}
    (hm : (id, .publication e (.committing c)) ∈ w.tasks) :
    Stepped w (.advance id) (w.advanceCommit id e c) := by
  have hturned := turn_cases w.store id c
  cases hturn : w.store.turn id c with
  | blocked =>
    simp only [Workspace.advanceCommit, hturn]
    exact .still w _
  | next s c' =>
    rw [hturn] at hturned
    have hnext : w.advanceCommit id e c
        = (w.amended s (c.notes id) (sends c)).update id (.publication e (.committing c')) := by
      simp only [Workspace.advanceCommit, hturn, note_eq]
      cases c <;> simp [sends, send, withStore, amended]
    rw [hnext]
    exact .intro (.committing hturned) (h.traded_update _ _ _ hm _)
  | done s reply =>
    rw [hturn] at hturned
    simp only [Workspace.advanceCommit, hturn, returned_eq_amended]
    exact .intro (.committed hturned) (h.traded_finish _ _ _ hm)

theorem Discerned.drop (h : Discerned w) (a : Action) {e : Edition} {stage : Stage}
    (hm : (id, .publication e stage) ∈ w.tasks) (hstage : stage = .ready ∨ stage = .analysing) :
    Stepped w a (w.drop id) := by
  rw [Workspace.drop, emit_eq_amended]
  exact .intro (.dropped hstage) (h.traded_finish _ _ _ hm)

theorem Discerned.advance (h : Discerned w) (id : Nat) :
    Stepped w (.advance id) (w.advance id) := by
  have hsame : w.amended w.store [] [] = w := by simp [amended]
  unfold Workspace.advance
  split
  · exact .still w _
  · rename_i ht
    exact h.advanceCall (h.task?_iff.1 ht)
  · rename_i ht
    have htraded := h.traded_finish w.store [] [] (h.task?_iff.1 ht)
    rw [hsame] at htraded
    exact .intro .clearsSent htraded
  · rename_i d ds ht
    exact .intro .clearSent (h.traded_update w.store [_] [_] (h.task?_iff.1 ht) _)
  · rename_i e ht
    split
    · exact h.drop _ (h.task?_iff.1 ht) (Or.inl rfl)
    · rename_i hlive
      have htraded := h.traded_update w.store [] [] (h.task?_iff.1 ht)
        (.publication e .analysing)
      rw [hsame] at htraded
      exact .intro (.analysing (by simpa using hlive)) htraded
  · rename_i e ht
    split
    · exact h.drop _ (h.task?_iff.1 ht) (Or.inr rfl)
    · exact .still w _
  · rename_i ht
    exact h.advanceCommit (h.task?_iff.1 ht)

theorem Discerned.analysed (h : Discerned w) (id : Nat) (analysis : Analysis) :
    Stepped w (.analysed id analysis) (w.analysed id analysis) := by
  unfold Workspace.analysed
  split
  · rename_i e ds ht
    simp only [emit_eq_amended]
    exact .intro .found (h.traded_update _ _ _ (h.task?_iff.1 ht) _)
  · rename_i ht _
    exact h.drop _ (h.task?_iff.1 ht) (Or.inr rfl)
  · exact .still w _

/-- What every step does. -/
theorem Discerned.stepped (h : Discerned w) (a : Action) : Stepped w a (w.step a) := by
  cases a with
  | invoke p q =>
    simp only [Workspace.step, Workspace.invoke, emit_eq_amended]
    exact .intro .invoked (traded_start ..)
  | schedule e =>
    simp only [Workspace.step, Workspace.schedule, emit_eq_amended]
    exact .intro .scheduled (traded_start ..)
  | clear n => exact .intro .cleared (traded_amended w.store [_] [n] w)
  | cancel scope =>
    simp only [Workspace.step, emit_eq_amended]
    exact .intro .cancelled (traded_amended (w.store.cancel scope) [_] [] w)
  | advance id => exact h.advance id
  | analysed id analysis => exact h.analysed id analysis

/-! ## Numbers of tasks -/

theorem Discerned.update (h : Discerned w) (id : Nat) (t : Task) : Discerned (w.update id t) :=
  Numbered.Distinct.replace h id t

theorem Discerned.finish (h : Discerned w) (id : Nat) : Discerned (w.finish id) :=
  Numbered.Distinct.erase h id

theorem Discerned.start (h : Discerned w) (t : Task) : Discerned (w.start t) :=
  Numbered.Distinct.concat h t

theorem Discerned.follow (h : Discerned w) (id : Nat) (p : Purpose) (reply : Reply) :
    Discerned (w.follow id p reply) := by
  unfold Workspace.follow
  split
  · exact (h.finish id).start _
  · exact h.update id _
  · exact h.update id _
  · exact h.finish id

theorem Discerned.step (h : Discerned w) (a : Action) : Discerned (w.step a) := by
  have hnote : ∀ (id : Nat) (c : Call), Discerned (w.note id c) := by
    intro id c
    rw [note_eq]
    exact h
  have hdone : ∀ (id : Nat) (c : Call) (s : Store) (e : Event),
      Discerned (((w.note id c).withStore s).emit e) := fun id c _ _ => hnote id c
  cases a with
  | invoke | schedule => exact h.start _
  | clear | cancel => exact h
  | advance id =>
    simp only [Workspace.step, Workspace.advance]
    split
    · exact h
    · simp only [Workspace.advanceCall]
      split
      · exact h
      · exact (hnote id _).update id _
      · exact (hdone id _ _ _).follow id _ _
    · exact h.finish id
    · exact h.update id _
    · split
      · exact h.finish id
      · exact h.update id _
    · split
      · exact h.finish id
      · exact h
    · simp only [Workspace.advanceCommit]
      split
      · exact h
      · refine Discerned.update (w := withStore _ _) ?_ id _
        rw [note_eq]
        split <;> exact h
      · exact (hnote id _).finish id
  | analysed id analysis =>
    simp only [Workspace.step, Workspace.analysed]
    split
    · exact h.update id _
    · exact h.finish id
    · exact h

end Steps

/-! ## Runs of one kind -/

/-- One workspace comes from another by steps that `allows` lets through. -/
inductive Goes (allows : Workspace → Action → Prop) (w : Workspace) : Workspace → Prop
  | refl : Goes allows w w
  | step {w' : Workspace} (h : Goes allows w w') (a : Action) (ha : allows w' a) :
      Goes allows w (w'.step a)

/-- All steps of a schedule are let through, each where it is taken. -/
def AllowsAll (allows : Workspace → Action → Prop) : Workspace → List Action → Prop
  | _, [] => True
  | w, a :: as => allows w a ∧ AllowsAll allows (w.step a) as

theorem Goes.run {allows : Workspace → Action → Prop} {v w : Workspace} {actions : List Action}
    (h : Goes allows v w) (hall : AllowsAll allows w actions) : Goes allows v (w.run actions) := by
  induction actions generalizing w with
  | nil => exact h
  | cons a as ih => exact ih (h.step a hall.1) hall.2

theorem Goes.reaches {allows : Workspace → Action → Prop} {w w' : Workspace}
    (h : Goes allows w w') (hall : ∀ v a, allows v a → v.Admits a) : Reaches w w' := by
  induction h with
  | refl => exact .refl
  | step _ a ha ih => exact ih.step a (hall _ a ha)

theorem Reaches.discerned {lifetime : Scope} {w : Workspace} (hr : Reaches (fresh lifetime) w) :
    Discerned w := by
  induction hr with
  | refl => exact discerned_fresh lifetime
  | step _ a _ ih => exact ih.step a

/-- What tasks have together. -/
def across {β : Type} (f : Task → List β) (tasks : List (Nat × Task)) : List β :=
  tasks.flatMap fun x => f x.2

@[simp] theorem across_nil {β : Type} (f : Task → List β) : across f [] = [] := rfl

@[simp] theorem across_singleton {β : Type} (f : Task → List β) (x : Nat × Task) :
    across f [x] = f x.2 := by
  simp [across]

theorem mem_across {β : Type} {f : Task → List β} {tasks : List (Nat × Task)} {b : β} :
    b ∈ across f tasks ↔ ∃ x ∈ tasks, b ∈ f x.2 := List.mem_flatMap

section Traded

variable {w w' : Workspace} {before after : List (Nat × Task)} {es : List Event} {ns : List Notice}

/-- A task after a step was there before or is one that the step leaves. -/
theorem Traded.mem (h : Traded w w' before after es ns) {x : Nat × Task} (hx : x ∈ w'.tasks) :
    x ∈ after ∨ x ∈ w.tasks := by
  obtain ⟨rest, hbefore, hafter⟩ := h.tasks
  rcases List.mem_append.1 (hafter.mem_iff.1 hx) with hx | hx
  · exact Or.inl hx
  · exact Or.inr (hbefore.mem_iff.2 (List.mem_append_right _ hx))

theorem Traded.mem_before (h : Traded w w' before after es ns) {x : Nat × Task} (hx : x ∈ before) :
    x ∈ w.tasks := by
  obtain ⟨rest, hbefore, _⟩ := h.tasks
  exact hbefore.mem_iff.2 (List.mem_append_left _ hx)

theorem Traded.mem_after (h : Traded w w' before after es ns) {x : Nat × Task} (hx : x ∈ after) :
    x ∈ w'.tasks := by
  obtain ⟨rest, _, hafter⟩ := h.tasks
  exact hafter.mem_iff.2 (List.mem_append_left _ hx)

/-- A task before a step is still there, or is one that the step takes. -/
theorem Traded.mem_or (h : Traded w w' before after es ns) {x : Nat × Task} (hx : x ∈ w.tasks) :
    x ∈ before ∨ x ∈ w'.tasks := by
  obtain ⟨rest, hbefore, hafter⟩ := h.tasks
  rcases List.mem_append.1 (hbefore.mem_iff.1 hx) with hx | hx
  · exact Or.inl hx
  · exact Or.inr (hafter.mem_iff.2 (List.mem_append_right _ hx))

/-- What the tasks have together, around a step. -/
theorem Traded.across {β : Type} (h : Traded w w' before after es ns) (f : Task → List β) :
    ∃ rest, (across f w.tasks).Perm (across f before ++ rest) ∧
      (across f w'.tasks).Perm (across f after ++ rest) := by
  obtain ⟨rest, hbefore, hafter⟩ := h.tasks
  refine ⟨Workspace.across f rest, ?_, ?_⟩
  · rw [Workspace.across, Workspace.across, Workspace.across, ← List.flatMap_append]
    exact hbefore.flatMap_right _
  · rw [Workspace.across, Workspace.across, Workspace.across, ← List.flatMap_append]
    exact hafter.flatMap_right _

/-- What a task has before a step it still has after it, or it is a task that the step takes. -/
theorem Traded.mem_across {β : Type} (h : Traded w w' before after es ns) {f : Task → List β}
    {b : β} (hb : b ∈ Workspace.across f w.tasks) :
    b ∈ Workspace.across f before ∨ b ∈ Workspace.across f w'.tasks := by
  obtain ⟨x, hx, hb⟩ := Workspace.mem_across.1 hb
  exact (h.mem_or hx).imp (fun hx => Workspace.mem_across.2 ⟨x, hx, hb⟩)
    fun hx => Workspace.mem_across.2 ⟨x, hx, hb⟩

theorem Traded.across_mem {β : Type} (h : Traded w w' before after es ns) {f : Task → List β}
    {b : β} (hb : b ∈ Workspace.across f w'.tasks) :
    b ∈ Workspace.across f after ∨ b ∈ Workspace.across f w.tasks := by
  obtain ⟨x, hx, hb⟩ := Workspace.mem_across.1 hb
  exact (h.mem hx).imp (fun hx => Workspace.mem_across.2 ⟨x, hx, hb⟩)
    fun hx => Workspace.mem_across.2 ⟨x, hx, hb⟩

theorem Traded.across_after {β : Type} (h : Traded w w' before after es ns) {f : Task → List β}
    {b : β} (hb : b ∈ Workspace.across f after) : b ∈ Workspace.across f w'.tasks := by
  obtain ⟨x, hx, hb⟩ := Workspace.mem_across.1 hb
  exact Workspace.mem_across.2 ⟨x, h.mem_after hx, hb⟩

/-- What the tasks have stays, if it stays with those that the step takes. -/
theorem Traded.across_mono {β : Type} (h : Traded w w' before after es ns) {f : Task → List β}
    (hsub : ∀ b ∈ Workspace.across f before, b ∈ Workspace.across f after) {b : β}
    (hb : b ∈ Workspace.across f w.tasks) : b ∈ Workspace.across f w'.tasks :=
  (h.mem_across hb).elim (fun hb => h.across_after (hsub b hb)) id

theorem Traded.across_before {β : Type} (h : Traded w w' before after es ns) {f : Task → List β}
    {b : β} (hb : b ∈ Workspace.across f before) : b ∈ Workspace.across f w.tasks := by
  obtain ⟨x, hx, hb⟩ := Workspace.mem_across.1 hb
  exact Workspace.mem_across.2 ⟨x, h.mem_before hx, hb⟩

end Traded

end Workspace

namespace Workspace

section TaskStep

variable {w : Workspace} {a : Action} {s : Store} {before after : List (Nat × Task)}
  {es : List Event} {ns : List Notice} {id : Nat}

/-- A task has the number of the one that it comes from, or a new one. -/
theorem TaskStep.number (h : TaskStep w a s before after es ns) {t : Task} (hm : (id, t) ∈ after) :
    id = w.started ∨ ∃ t', (id, t') ∈ before := by
  cases h with
  | invoked | scheduled | opened =>
    cases List.mem_singleton.1 hm
    exact Or.inl rfl
  | next | closed | clearSent | analysing | found | committing =>
    cases List.mem_singleton.1 hm
    exact Or.inr ⟨_, List.mem_singleton.2 rfl⟩
  | _ => cases hm

/-- A publication was one before, or is scheduled by the step. -/
theorem TaskStep.publication (h : TaskStep w a s before after es ns) {e : Edition} {stage : Stage}
    (hm : (id, .publication e stage) ∈ after) :
    Event.scheduled id e ∈ es ∨ ∃ stage', (id, Task.publication e stage') ∈ before := by
  cases h with
  | scheduled | opened =>
    cases List.mem_singleton.1 hm
    exact Or.inl (List.mem_cons_self ..)
  | analysing | found | committing =>
    cases List.mem_singleton.1 hm
    exact Or.inr ⟨_, List.mem_singleton.2 rfl⟩
  | invoked | next | closed | clearSent => cases List.mem_singleton.1 hm
  | _ => cases hm

/-- A request is made from outside, or by a publication that has its findings. -/
theorem TaskStep.request (h : TaskStep w a s before after es ns) {q : Request}
    (hm : Event.invoked id q ∈ es) : (id = w.started ∧ ∃ p, a = .invoke p q) ∨
      ∃ e ds, a = .analysed id (.found ds) ∧ (id, Task.publication e .analysing) ∈ before ∧
        q = .commit e ⟨e.uri, e.version, ds⟩ := by
  have hnotes : ∀ {j c}, Event.invoked id q ∉ Call.notes j c :=
    fun {j c} => invoked_notin_notes j id c q
  cases h with
  | invoked =>
    cases List.mem_singleton.1 hm
    exact Or.inl ⟨rfl, _, rfl⟩
  | found =>
    cases List.mem_singleton.1 hm
    exact Or.inr ⟨_, _, rfl, List.mem_singleton.2 rfl, rfl⟩
  | next | committing => exact absurd hm hnotes
  | opened | closed | finished | committed => simp [hnotes] at hm
  | scheduled | cleared | cancelled | clearSent | dropped => cases List.mem_singleton.1 hm
  | _ => cases hm

end TaskStep

end Workspace

/-! ## Purposes -/

/-- The purpose of a call that does the work. -/
def Work.purpose? : Work → Option Purpose
  | .change .. => some .analyse
  | .close => some .clear
  | .version | .snapshot => some .answer
  | .commit .. => none

/-- What a call is made for. Commits are made for no purpose but by publications. -/
def Call.purpose? : Call → Option Purpose
  | .track .. | .supersede .. | .replace .. => some .analyse
  | .isOpen _ | .size => some .answer
  | .find _ work | .arrive _ work | .queued _ work => work.purpose?
  | .remove _ | .cancelSlot _ | .endLifetime | .drain | .collect .. | .collecting .. => some .clear
  | .publish .. | .publishing .. => none

theorem Turned.purpose?_next {s s' : Store} {id : Nat} {c c' : Call}
    (h : Turned s id c (.next s' c')) : c'.purpose? = c.purpose? := by
  cases h <;> rfl

/-- The notice that an event sends to the client. -/
def Event.notice? : Event → Option Notice
  | .began _ r => some r.notice
  | .cleared n => some n
  | _ => none

/-- A call that is made for a purpose sends nothing. -/
theorem Call.notices_notes {c : Call} (id : Nat) (h : c.purpose? ≠ none) :
    (c.notes id).filterMap Event.notice? = [] := by
  cases c <;> first | rfl | exact absurd rfl h

/-- A turn that ends a call sends nothing. -/
theorem Turned.notices_done {s s' : Store} {id : Nat} {c : Call} {reply : Reply}
    (h : Turned s id c (.done s' reply)) : (c.notes id).filterMap Event.notice? = [] := by
  cases h with
  | answered hbrief => cases c <;> first | rfl | cases hbrief
  | _ => rfl

theorem Call.notices_sends (c : Call) (id : Nat) :
    (c.notes id).filterMap Event.notice? = Workspace.sends c := by
  cases c <;> rfl

/-- Calls are made for the purposes that are allowed for them, and commits only by publications. -/
def Task.Suits (allowed : Purpose → Purpose → Prop) : Task → Prop
  | .call p c => ∃ p', c.purpose? = some p' ∧ allowed p p'
  | .publication _ (.committing c) => c.purpose? = none
  | _ => True

namespace Workspace

def Suited (allowed : Purpose → Purpose → Prop) (w : Workspace) : Prop :=
  ∀ x ∈ w.tasks, x.2.Suits allowed

/-- The notices in a history, the oldest first. -/
def sentNotices (history : List Event) : List Notice := (history.filterMap Event.notice?).reverse

theorem sentNotices_append (es h : List Event) :
    sentNotices (es ++ h) = sentNotices h ++ sentNotices es := by
  simp [sentNotices]

section Purposes

variable {allowed : Purpose → Purpose → Prop} {w w' : Workspace} {a : Action}

theorem suited_fresh (lifetime : Scope) : Suited allowed (fresh lifetime) := by
  simp [Suited, fresh]

theorem Suited.step (h : Suited allowed w) (hs : Stepped w a w')
    (ha : ∀ p q, a = .invoke p q → ∃ p', q.call.purpose? = some p' ∧ allowed p p') :
    Suited allowed w' := by
  obtain ⟨taskStep, traded⟩ := hs
  intro x hx
  rcases traded.mem hx with hx | hx
  · have hbefore := fun y hy => h y (traded.mem_before hy)
    generalize w'.store = s at taskStep
    cases taskStep with
    | invoked =>
      cases List.mem_singleton.1 hx
      exact ha _ _ rfl
    | next ht =>
      cases List.mem_singleton.1 hx
      have hc := hbefore _ (List.mem_singleton.2 rfl)
      rw [Task.Suits, ht.purpose?_next]
      exact hc
    | found =>
      cases List.mem_singleton.1 hx
      rfl
    | committing ht =>
      cases List.mem_singleton.1 hx
      have hc := hbefore _ (List.mem_singleton.2 rfl)
      rw [Task.Suits, ht.purpose?_next]
      exact hc
    | scheduled | opened | closed | clearSent | analysing =>
      cases List.mem_singleton.1 hx
      exact trivial
    | _ => cases hx
  · exact h x hx

/-- What is sent is what stands in the history. -/
def AllSent (w : Workspace) : Prop := w.outbox = sentNotices w.history

theorem AllSent.step (h : AllSent w) (hsuited : Suited allowed w) (hs : Stepped w a w') :
    AllSent w' := by
  obtain ⟨taskStep, traded⟩ := hs
  suffices hnew : sentNotices _ = _ by
    rw [AllSent, traded.history, sentNotices_append, traded.outbox, h]
    exact congrArg _ hnew.symm
  have hdone : ∀ {id c s reply} (es : List Event), Turned w.store id c (.done s reply) →
      es.filterMap Event.notice? = [] → sentNotices (es ++ c.notes id) = [] := by
    intro id c s reply es ht hes
    rw [sentNotices, List.filterMap_append, hes, ht.notices_done]
    rfl
  have hbefore := fun y hy => hsuited y (traded.mem_before hy)
  generalize w'.store = s at taskStep
  cases taskStep with
  | @next id p c =>
    -- a call that is made for a purpose is no publication
    obtain ⟨p', hp', _⟩ := hbefore _ (List.mem_singleton.2 rfl)
    rw [sentNotices, Call.notices_notes id (by rw [hp']; nofun)]
    rfl
  | opened ht => exact hdone [_, _] ht rfl
  | closed _ ht => exact hdone [_] ht rfl
  | finished _ _ ht => exact hdone [_] ht rfl
  | committed ht => exact hdone [_] ht rfl
  | @committing id e c =>
    rw [sentNotices, Call.notices_sends]
    cases c <;> rfl
  | _ => rfl

end Purposes

/-! ## Steps of a session -/

/-- The steps of a session: requests are made for their purposes, publications are started and the
client is told by tasks only, and what is cancelled from outside is the lifetime or more. -/
def Handles (w : Workspace) : Action → Prop
  | .invoke p q => q.call.purpose? = some p
  | .schedule _ | .clear _ => False
  | .cancel scope => scope <+: w.store.lifetime
  | .advance _ | .analysed .. => True

theorem Handles.admits {w : Workspace} {a : Action} (h : w.Handles a) : w.Admits a := by
  cases a with
  | invoke p q =>
    cases q with
    | commit e r => cases h
    | _ => exact trivial
  | schedule | clear => exact h.elim
  | cancel => exact h
  | advance | analysed => exact trivial

section Handled

variable {lifetime : Scope} {w : Workspace}

theorem Goes.handled (h : Goes Handles (fresh lifetime) w) : Reaches (fresh lifetime) w :=
  h.reaches fun _ _ ha => ha.admits

theorem Goes.suited (h : Goes Handles (fresh lifetime) w) : Suited Eq w := by
  induction h with
  | refl => exact suited_fresh lifetime
  | step h a ha ih =>
    refine ih.step (h.handled.discerned.stepped a) fun p q he => ⟨p, ?_, rfl⟩
    subst he
    exact ha

/-- In a session, what was sent is what the history tells. -/
theorem Goes.allSent (h : Goes Handles (fresh lifetime) w) : AllSent w := by
  induction h with
  | refl => rfl
  | step h a _ ih => exact ih.step h.suited (h.handled.discerned.stepped a)

end Handled

end Workspace

end PromqlServer.Document
