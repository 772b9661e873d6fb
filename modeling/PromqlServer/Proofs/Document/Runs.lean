import PromqlServer.Document.Workspace
import PromqlServer.Proofs.Numbered
import PromqlServer.Proofs.Document.Turns

/-!
Runs of a workspace. A run starts from an empty cache and goes on by steps that the surroundings can
cause: version contexts come only from `open` and `change`, and the scopes that are cancelled from
outside are those of the lifetime. `step_spec` says what a step does to the store, to the calls
under way and to the history; `Reaches` is the relation that all invariants are carried along.
-/

namespace PromqlServer.Document

/-- The call that a task is at. -/
def Task.call? : Task → Option Call
  | .call _ c => some c
  | .publication _ (.committing c) => some c
  | _ => none

/-- A publication that has not come to its commit. -/
def Task.isEarly : Task → Bool
  | .publication _ .ready | .publication _ .analysing => true
  | _ => false

/-- Events about tasks and notices, not about calls. -/
def Event.isAside : Event → Bool
  | .scheduled .. | .dropped _ | .cleared _ => true
  | _ => false

/-- What a turn of a call leaves in the history, apart from its reply. -/
def Call.notes (id : Nat) : Call → List Event
  | .publish _ report => [.began id report]
  | .publishing _ _ => [.ended id]
  | _ => []

/-- The reply of a turn, as it stands in the history. -/
def Turn.replies (id : Nat) : Turn → List Event
  | .done _ reply => [.returned id reply]
  | _ => []

/-- The edition that an event hands out. -/
def Event.edition? : Event → Option Edition
  | .returned _ (.opened e) => some e
  | _ => none

/-- In a history, which has the latest event first, `a` comes before `b`. -/
def Precedes (history : List Event) (a b : Event) : Prop := [b, a].Sublist history

theorem precedes_cons {e a b : Event} {h : List Event} :
    Precedes (e :: h) a b ↔ (e = b ∧ a ∈ h) ∨ Precedes h a b := by
  constructor
  · intro hp
    cases hp with
    | cons _ hp => exact Or.inr hp
    | cons_cons _ hp => exact Or.inl ⟨rfl, List.singleton_sublist.1 hp⟩
  · rintro (⟨rfl, ha⟩ | hp)
    · exact (List.singleton_sublist.2 ha).cons_cons _
    · exact hp.cons _

theorem Precedes.mem_left {a b : Event} {h : List Event} (hp : Precedes h a b) : a ∈ h :=
  hp.subset (by simp)

theorem Precedes.mem_right {a b : Event} {h : List Event} (hp : Precedes h a b) : b ∈ h :=
  hp.subset (by simp)

theorem Precedes.append {a b : Event} {h : List Event} (hp : Precedes h a b) (es : List Event) :
    Precedes (es ++ h) a b := hp.trans (List.sublist_append_right es h)

theorem Call.mem_notes {id : Nat} {c : Call} {e : Event} (h : e ∈ c.notes id) :
    (∃ k r, c = .publish k r ∧ e = .began id r) ∨ (∃ k r, c = .publishing k r ∧ e = .ended id) := by
  cases c <;> simp_all [Call.notes]

theorem invoked_notin_notes (id j : Nat) (c : Call) (r : Request) :
    Event.invoked j r ∉ c.notes id := by
  intro h
  obtain ⟨_, _, _, he⟩ | ⟨_, _, _, he⟩ := Call.mem_notes h <;> cases he

theorem returned_notin_notes (id j : Nat) (c : Call) (r : Reply) :
    Event.returned j r ∉ c.notes id := by
  intro h
  obtain ⟨_, _, _, he⟩ | ⟨_, _, _, he⟩ := Call.mem_notes h <;> cases he

namespace Workspace

/-- The call that a task is at, by the number of the task. -/
def callAt (w : Workspace) (id : Nat) : Option Call := (w.task? id).bind Task.call?

/-- The edition was handed out by a call. -/
def HandedOut (w : Workspace) (e : Edition) : Prop :=
  ∃ id, Event.returned id (.opened e) ∈ w.history

theorem handedOut_iff {w : Workspace} {e : Edition} :
    w.HandedOut e ↔ some e ∈ w.history.map Event.edition? := by
  rw [List.mem_map]
  constructor
  · rintro ⟨id, hid⟩
    exact ⟨_, hid, rfl⟩
  · rintro ⟨x, hx, he⟩
    unfold Event.edition? at he
    split at he
    · cases he
      exact ⟨_, hx⟩
    · cases he

instance (w : Workspace) (e : Edition) : Decidable (w.HandedOut e) :=
  decidable_of_iff _ handedOut_iff.symm

/-- A workspace on an empty store. -/
def fresh (lifetime : Scope) : Workspace := { store := { lifetime } }

/-- The steps that the surroundings can cause: only editions that were handed out are worked on,
and only the lifetime is cancelled from outside, by itself or with what it belongs to. -/
def Admits (w : Workspace) : Action → Prop
  | .invoke _ (.commit e _) => w.HandedOut e
  | .schedule e => w.HandedOut e
  | .cancel scope => scope <+: w.store.lifetime
  | _ => True

instance (w : Workspace) : (a : Action) → Decidable (w.Admits a)
  | .invoke _ (.commit e _) => inferInstanceAs (Decidable (w.HandedOut e))
  | .schedule e => inferInstanceAs (Decidable (w.HandedOut e))
  | .cancel scope => inferInstanceAs (Decidable (scope <+: w.store.lifetime))
  | .invoke _ (.track ..) | .invoke _ (.change ..) | .invoke _ (.close _) | .invoke _ (.version _)
  | .invoke _ (.snapshot _) | .invoke _ (.isOpen _) | .invoke _ .size | .invoke _ .shutdown
  | .clear _ | .advance _ | .analysed .. => isTrue trivial

/-- All steps of a schedule are admitted, each where it is taken. -/
def AdmitsAll (step : Workspace → Action → Workspace) : Workspace → List Action → Bool
  | _, [] => true
  | w, a :: as => decide (w.Admits a) && AdmitsAll step (step w a) as

/-- One workspace comes from another by admitted steps. -/
inductive Reaches (w : Workspace) : Workspace → Prop
  | refl : Reaches w w
  | step {w' : Workspace} (h : Reaches w w') (a : Action) (ha : w'.Admits a) : Reaches w (w'.step a)

theorem Reaches.trans {u v w : Workspace} (h : Reaches u v) (h' : Reaches v w) : Reaches u w := by
  induction h' with
  | refl => exact h
  | step _ a ha ih => exact ih.step a ha

theorem Reaches.run {w : Workspace} {actions : List Action}
    (h : AdmitsAll Workspace.step w actions = true) : Reaches w (w.run actions) := by
  induction actions generalizing w with
  | nil => exact .refl
  | cons a as ih =>
    rw [AdmitsAll, Bool.and_eq_true, decide_eq_true_eq] at h
    exact (Reaches.refl.step a h.1).trans (ih h.2)

/-! ## Tasks -/

theorem task?_start {w : Workspace} (t : Task) (hw : w.task? w.started = none) (j : Nat) :
    (w.start t).task? j = if j = w.started then some t else w.task? j :=
  Numbered.item?_concat w.tasks w.started t hw j

theorem task?_update (w : Workspace) (id : Nat) (t : Task) (j : Nat) :
    (w.update id t).task? j = if j = id then (w.task? id).map fun _ => t else w.task? j :=
  Numbered.item?_replace w.tasks id t j

theorem task?_finish (w : Workspace) (id j : Nat) :
    (w.finish id).task? j = if j = id then none else w.task? j :=
  Numbered.item?_erase w.tasks id j

@[simp] theorem emit_store (w : Workspace) (e : Event) : (w.emit e).store = w.store := rfl
@[simp] theorem emit_started (w : Workspace) (e : Event) : (w.emit e).started = w.started := rfl
@[simp] theorem emit_history (w : Workspace) (e : Event) :
    (w.emit e).history = e :: w.history := rfl
@[simp] theorem emit_task? (w : Workspace) (e : Event) : (w.emit e).task? = w.task? := rfl

@[simp] theorem send_store (w : Workspace) (n : Notice) : (w.send n).store = w.store := rfl
@[simp] theorem send_started (w : Workspace) (n : Notice) : (w.send n).started = w.started := rfl
@[simp] theorem send_history (w : Workspace) (n : Notice) : (w.send n).history = w.history := rfl
@[simp] theorem send_task? (w : Workspace) (n : Notice) : (w.send n).task? = w.task? := rfl

@[simp] theorem withStore_store (w : Workspace) (s : Store) : (w.withStore s).store = s := rfl
@[simp] theorem withStore_started (w : Workspace) (s : Store) :
    (w.withStore s).started = w.started := rfl
@[simp] theorem withStore_history (w : Workspace) (s : Store) :
    (w.withStore s).history = w.history := rfl
@[simp] theorem withStore_task? (w : Workspace) (s : Store) : (w.withStore s).task? = w.task? := rfl

@[simp] theorem update_store (w : Workspace) (id : Nat) (t : Task) :
    (w.update id t).store = w.store := rfl
@[simp] theorem update_started (w : Workspace) (id : Nat) (t : Task) :
    (w.update id t).started = w.started := rfl
@[simp] theorem update_history (w : Workspace) (id : Nat) (t : Task) :
    (w.update id t).history = w.history := rfl

@[simp] theorem finish_store (w : Workspace) (id : Nat) : (w.finish id).store = w.store := rfl
@[simp] theorem finish_started (w : Workspace) (id : Nat) : (w.finish id).started = w.started := rfl
@[simp] theorem finish_history (w : Workspace) (id : Nat) : (w.finish id).history = w.history := rfl

@[simp] theorem start_store (w : Workspace) (t : Task) : (w.start t).store = w.store := rfl
@[simp] theorem start_started (w : Workspace) (t : Task) :
    (w.start t).started = w.started + 1 := rfl
@[simp] theorem start_history (w : Workspace) (t : Task) : (w.start t).history = w.history := rfl

theorem note_eq (w : Workspace) (id : Nat) (c : Call) :
    w.note id c = { w with history := c.notes id ++ w.history } := by
  cases c <;> rfl

@[simp] theorem note_store (w : Workspace) (id : Nat) (c : Call) :
    (w.note id c).store = w.store := by rw [note_eq]

@[simp] theorem note_started (w : Workspace) (id : Nat) (c : Call) :
    (w.note id c).started = w.started := by rw [note_eq]

@[simp] theorem note_history (w : Workspace) (id : Nat) (c : Call) :
    (w.note id c).history = c.notes id ++ w.history := by rw [note_eq]

@[simp] theorem note_task? (w : Workspace) (id : Nat) (c : Call) :
    (w.note id c).task? = w.task? := by rw [note_eq]; rfl

/-! ## Tidy workspaces -/

/-- The numbers of tasks and calls are used once, and tasks work only on editions that were handed
out. -/
structure Tidy (w : Workspace) : Prop where
  numbered : ∀ id t, w.task? id = some t → id < w.started
  known : ∀ id request, Event.invoked id request ∈ w.history → id < w.started
  early : ∀ id t, w.task? id = some t → t.isEarly = true →
    ∀ request, Event.invoked id request ∉ w.history
  answered : ∀ id reply, Event.returned id reply ∈ w.history → id < w.started ∧
    ∀ t, w.task? id = some t → t.isEarly = false ∧ t.call? = none
  editions : ∀ id e stage, w.task? id = some (.publication e stage) → w.HandedOut e

theorem HandedOut.mono {w w' : Workspace} {e : Edition} (h : w.HandedOut e)
    (hsub : ∀ x ∈ w.history, x ∈ w'.history) : w'.HandedOut e := by
  obtain ⟨id, hid⟩ := h
  exact ⟨id, hsub _ hid⟩

theorem tidy_fresh (lifetime : Scope) : Tidy (fresh lifetime) where
  numbered := by simp [fresh, task?]
  known := by simp [fresh]
  early := by simp [fresh, task?]
  answered := by simp [fresh]
  editions := by simp [fresh, task?]

theorem Tidy.task?_started {w : Workspace} (h : Tidy w) : w.task? w.started = none := by
  cases ht : w.task? w.started with
  | none => rfl
  | some t => exact absurd (h.numbered _ _ ht) (Nat.lt_irrefl _)

/-- Events that tell nothing about the calls and their replies. -/
theorem Tidy.of_history {w : Workspace} (h : Tidy w) {w' : Workspace} (ht : w'.task? = w.task?)
    (hn : w'.started = w.started) (es : List Event) (hh : w'.history = es ++ w.history)
    (hi : ∀ id r, Event.invoked id r ∉ es) (hr : ∀ id r, Event.returned id r ∉ es) : Tidy w' where
  numbered := by rw [ht, hn]; exact h.numbered
  known := by
    intro id r hm
    rw [hh, List.mem_append] at hm
    rw [hn]
    exact h.known id r (hm.resolve_left (hi id r))
  early := by
    intro id t hid he r hm
    rw [hh, List.mem_append] at hm
    rw [ht] at hid
    exact h.early id t hid he r (hm.resolve_left (hi id r))
  answered := by
    intro id r hm
    rw [hh, List.mem_append] at hm
    rw [ht, hn]
    exact h.answered id r (hm.resolve_left (hr id r))
  editions := by
    intro id e stage hid
    rw [ht] at hid
    exact (h.editions id e stage hid).mono fun x hx => by rw [hh]; exact List.mem_append_right _ hx

theorem Tidy.finish {w : Workspace} (h : Tidy w) (id : Nat) : Tidy (w.finish id) where
  numbered := by
    intro j t hj
    rw [task?_finish] at hj
    split at hj
    · cases hj
    · exact h.numbered j t hj
  known := h.known
  early := by
    intro j t hj
    rw [task?_finish] at hj
    split at hj
    · cases hj
    · exact h.early j t hj
  answered := by
    intro j r hm
    refine ⟨(h.answered j r hm).1, fun t hj => ?_⟩
    rw [task?_finish] at hj
    split at hj
    · cases hj
    · exact (h.answered j r hm).2 t hj
  editions := by
    intro j e stage hj
    rw [task?_finish] at hj
    split at hj
    · cases hj
    · exact h.editions j e stage hj

/-- A task goes on as another task. -/
theorem Tidy.update {w : Workspace} (h : Tidy w) {id : Nat} {t : Task}
    (hearly : t.isEarly = true → ∀ r, Event.invoked id r ∉ w.history)
    (hover : ∀ r, Event.returned id r ∈ w.history → t.isEarly = false ∧ t.call? = none)
    (hed : ∀ e stage, t = .publication e stage → w.HandedOut e) : Tidy (w.update id t) := by
  have hcase : ∀ j u, (w.update id t).task? j = some u →
      (j = id ∧ u = t ∧ (w.task? id).isSome = true) ∨ (j ≠ id ∧ w.task? j = some u) := by
    intro j u hj
    rw [task?_update] at hj
    split at hj
    · rename_i hjid
      cases hid : w.task? id with
      | none => rw [hid] at hj; cases hj
      | some t0 => rw [hid] at hj; cases hj; exact Or.inl ⟨hjid, rfl, rfl⟩
    · rename_i hjid
      exact Or.inr ⟨hjid, hj⟩
  constructor
  · intro j u hj
    obtain ⟨rfl, rfl, hs⟩ | ⟨_, hj⟩ := hcase j u hj
    · obtain ⟨t0, ht0⟩ := Option.isSome_iff_exists.1 hs
      exact h.numbered _ _ ht0
    · exact h.numbered j u hj
  · exact h.known
  · intro j u hj he
    obtain ⟨rfl, rfl, _⟩ | ⟨_, hj⟩ := hcase j u hj
    · exact hearly he
    · exact h.early j u hj he
  · intro j r hm
    refine ⟨(h.answered j r hm).1, fun u hj => ?_⟩
    obtain ⟨rfl, rfl, _⟩ | ⟨_, hj⟩ := hcase j u hj
    · exact hover r hm
    · exact (h.answered j r hm).2 u hj
  · intro j e stage hj
    obtain ⟨rfl, he, _⟩ | ⟨_, hj⟩ := hcase j _ hj
    · exact hed e stage he.symm
    · exact h.editions j e stage hj

theorem Tidy.emit_returned {w : Workspace} (h : Tidy w) {id : Nat} (reply : Reply)
    (hid : id < w.started) (hover : ∀ t, w.task? id = some t → t.isEarly = false ∧ t.call? = none) :
    Tidy (w.emit (.returned id reply)) where
  numbered := h.numbered
  known := by
    intro j r hm
    exact h.known j r (by simpa using hm)
  early := by
    intro j t hj he r hm
    exact h.early j t hj he r (by simpa using hm)
  answered := by
    intro j r hm
    rw [emit_history, List.mem_cons] at hm
    rcases hm with heq | hm
    · cases heq
      exact ⟨hid, hover⟩
    · exact h.answered j r hm
  editions := by
    intro j e stage hj
    exact (h.editions j e stage hj).mono fun x hx => List.mem_cons_of_mem _ hx

theorem Tidy.emit_invoked {w : Workspace} (h : Tidy w) {id : Nat} (request : Request)
    (hid : id < w.started) (hearly : ∀ t, w.task? id = some t → t.isEarly = false) :
    Tidy (w.emit (.invoked id request)) where
  numbered := h.numbered
  known := by
    intro j r hm
    rw [emit_history, List.mem_cons] at hm
    rcases hm with heq | hm
    · cases heq
      exact hid
    · exact h.known j r hm
  early := by
    intro j t hj he r hm
    rw [emit_history, List.mem_cons] at hm
    rcases hm with heq | hm
    · cases heq
      rw [hearly t hj] at he
      cases he
    · exact h.early j t hj he r hm
  answered := by
    intro j r hm
    exact h.answered j r (by simpa using hm)
  editions := by
    intro j e stage hj
    exact (h.editions j e stage hj).mono fun x hx => List.mem_cons_of_mem _ hx

theorem Tidy.invoke {w : Workspace} (h : Tidy w) (purpose : Purpose) (request : Request) :
    Tidy (w.invoke purpose request) := by
  have htask : ∀ j, (w.invoke purpose request).task? j
      = if j = w.started then some (.call purpose request.call) else w.task? j :=
    fun j => task?_start _ h.task?_started j
  have hcase : ∀ j t, (w.invoke purpose request).task? j = some t →
      t = .call purpose request.call ∨ (j ≠ w.started ∧ w.task? j = some t) := by
    intro j t hj
    rw [htask] at hj
    split at hj
    · exact Or.inl (by cases hj; rfl)
    · exact Or.inr ⟨‹_›, hj⟩
  constructor
  · intro j t hj
    rw [htask] at hj
    split at hj
    · rename_i hjs
      exact hjs ▸ Nat.lt_succ_self _
    · exact Nat.lt_succ_of_lt (h.numbered j t hj)
  · intro j r hm
    rcases List.mem_cons.1 hm with heq | hm
    · cases heq
      exact Nat.lt_succ_self _
    · exact Nat.lt_succ_of_lt (h.known j r hm)
  · intro j t hj he r hm
    obtain rfl | ⟨hjs, hj⟩ := hcase j t hj
    · cases he
    · rcases List.mem_cons.1 hm with heq | hm
      · cases heq
        exact hjs rfl
      · exact h.early j t hj he r hm
  · intro j r hm
    have hm : Event.returned j r ∈ w.history := by
      rcases List.mem_cons.1 hm with heq | hm
      · cases heq
      · exact hm
    refine ⟨Nat.lt_succ_of_lt (h.answered j r hm).1, fun t hj => ?_⟩
    rw [htask, if_neg (Nat.ne_of_lt (h.answered j r hm).1)] at hj
    exact (h.answered j r hm).2 t hj
  · intro j e stage hj
    obtain heq | ⟨_, hj⟩ := hcase j _ hj
    · cases heq
    · exact (h.editions j e stage hj).mono fun x hx => List.mem_cons_of_mem _ hx

theorem Tidy.schedule {w : Workspace} (h : Tidy w) {e : Edition} (he : w.HandedOut e) :
    Tidy (w.schedule e) := by
  have htask : ∀ j, (w.schedule e).task? j
      = if j = w.started then some (.publication e .ready) else w.task? j :=
    fun j => task?_start _ h.task?_started j
  have hhist : ∀ x ∈ w.history, x ∈ (w.schedule e).history :=
    fun x hx => List.mem_cons_of_mem _ hx
  constructor
  · intro j t hj
    rw [htask] at hj
    split at hj
    · rename_i hjs
      exact hjs ▸ Nat.lt_succ_self _
    · exact Nat.lt_succ_of_lt (h.numbered j t hj)
  · intro j r hm
    exact Nat.lt_succ_of_lt (h.known j r (by simpa [Workspace.schedule] using hm))
  · intro j t hj hearly r hm
    have hm : Event.invoked j r ∈ w.history := by simpa [Workspace.schedule] using hm
    rw [htask, if_neg (Nat.ne_of_lt (h.known j r hm))] at hj
    exact h.early j t hj hearly r hm
  · intro j r hm
    have hm : Event.returned j r ∈ w.history := by simpa [Workspace.schedule] using hm
    refine ⟨Nat.lt_succ_of_lt (h.answered j r hm).1, fun t hj => ?_⟩
    rw [htask, if_neg (Nat.ne_of_lt (h.answered j r hm).1)] at hj
    exact (h.answered j r hm).2 t hj
  · intro j e' stage hj
    rw [htask] at hj
    split at hj
    · cases hj
      exact he.mono hhist
    · exact (h.editions j e' stage hj).mono hhist

/-! ## What a step does -/

/-- What a step does to the store, to the calls under way and to the history. -/
inductive Moved (w w' : Workspace) : Prop
  | aside (hs : w'.store = w.store) (hc : ∀ j, w'.callAt j = w.callAt j) (es : List Event)
      (hes : ∀ e ∈ es, e.isAside = true) (hh : w'.history = es ++ w.history)
  | invoked (id : Nat) (request : Request) (hnew : ∀ r, Event.invoked id r ∉ w.history)
      (hout : ∀ r, Event.returned id r ∉ w.history)
      (hed : ∀ e r, request = .commit e r → w.HandedOut e) (hnone : w.callAt id = none)
      (hs : w'.store = w.store)
      (hc : ∀ j, w'.callAt j = if j = id then some request.call else w.callAt j)
      (hh : w'.history = .invoked id request :: w.history)
  | cancelled (scope : Scope) (hscope : scope <+: w.store.lifetime)
      (hs : w'.store = w.store.cancel scope) (hc : ∀ j, w'.callAt j = w.callAt j)
      (hh : w'.history = .cancelled scope :: w.history)
  | turned (id : Nat) (c : Call) (t : Turn) (hcall : w.callAt id = some c)
      (ht : Turned w.store id c t) (hs : t.store? = some w'.store)
      (hc : ∀ j, w'.callAt j = if j = id then t.call? else w.callAt j) (es : List Event)
      (hes : ∀ e ∈ es, e.isAside = true)
      (hh : w'.history = es ++ (t.replies id ++ (c.notes id ++ w.history)))

/-- What a step that is no turn of a call does. -/
inductive Acted (w w' : Workspace) : Prop
  | aside (hs : w'.store = w.store) (hc : ∀ j, w'.callAt j = w.callAt j) (es : List Event)
      (hes : ∀ e ∈ es, e.isAside = true) (hh : w'.history = es ++ w.history)
  | invoked (id : Nat) (request : Request) (hnew : ∀ r, Event.invoked id r ∉ w.history)
      (hout : ∀ r, Event.returned id r ∉ w.history)
      (hed : ∀ e r, request = .commit e r → w.HandedOut e) (hnone : w.callAt id = none)
      (hs : w'.store = w.store)
      (hc : ∀ j, w'.callAt j = if j = id then some request.call else w.callAt j)
      (hh : w'.history = .invoked id request :: w.history)
  | cancelled (scope : Scope) (hscope : scope <+: w.store.lifetime)
      (hs : w'.store = w.store.cancel scope) (hc : ∀ j, w'.callAt j = w.callAt j)
      (hh : w'.history = .cancelled scope :: w.history)

/-- The call `id` has taken the turn `t`. -/
structure TurnTaken (w w' : Workspace) (id : Nat) (c : Call) (t : Turn) : Prop where
  store : t.store? = some w'.store
  calls : ∀ j, w'.callAt j = if j = id then t.call? else w.callAt j
  history : ∃ es : List Event, (∀ e ∈ es, e.isAside = true) ∧
    w'.history = es ++ (t.replies id ++ (c.notes id ++ w.history))

theorem Acted.moved {w w' : Workspace} (h : Acted w w') : Moved w w' := by
  cases h with
  | aside hs hc es hes hh => exact .aside hs hc es hes hh
  | invoked id request hnew hout hed hnone hs hc hh =>
    exact .invoked id request hnew hout hed hnone hs hc hh
  | cancelled scope hscope hs hc hh => exact .cancelled scope hscope hs hc hh

theorem TurnTaken.moved {w w' : Workspace} {id : Nat} {c : Call}
    (h : TurnTaken w w' id c (w.store.turn id c)) (hcall : w.callAt id = some c) : Moved w w' := by
  obtain ⟨es, hes, hh⟩ := h.history
  exact .turned id c _ hcall (turn_cases w.store id c) h.store h.calls es hes hh

theorem callAt_update {w : Workspace} {id : Nat} {t0 : Task} (h : w.task? id = some t0) (t : Task)
    (j : Nat) : (w.update id t).callAt j = if j = id then t.call? else w.callAt j := by
  unfold callAt
  rw [task?_update, h]
  split <;> rfl

theorem callAt_finish (w : Workspace) (id j : Nat) :
    (w.finish id).callAt j = if j = id then none else w.callAt j := by
  unfold callAt
  rw [task?_finish]
  split <;> rfl

theorem callAt_eq_of_task? {w w' : Workspace} (h : w'.task? = w.task?) (j : Nat) :
    w'.callAt j = w.callAt j := by
  unfold callAt
  rw [h]

theorem callAt_started {w : Workspace} (h : Tidy w) : w.callAt w.started = none := by
  unfold callAt
  rw [h.task?_started]
  rfl

/-- A task that is at a call has not returned. -/
theorem Tidy.not_returned {w : Workspace} (h : Tidy w) {id : Nat} {c : Call}
    (hc : w.callAt id = some c) (r : Reply) : Event.returned id r ∉ w.history := by
  intro hm
  obtain ⟨t, ht, hcall⟩ := Option.bind_eq_some_iff.1 hc
  have := ((h.answered id r hm).2 t ht).2
  rw [this] at hcall
  cases hcall

theorem Tidy.lt_started {w : Workspace} (h : Tidy w) {id : Nat} {c : Call}
    (hc : w.callAt id = some c) : id < w.started := by
  obtain ⟨t, ht, _⟩ := Option.bind_eq_some_iff.1 hc
  exact h.numbered id t ht

/-- A turn that does not end the call. -/
theorem next_spec {w : Workspace} (h : Tidy w) {id : Nat} {c c' : Call} {s : Store} {t0 t : Task}
    (ht0 : w.task? id = some t0) (hc0 : t0.call? = some c) (ht : t.call? = some c')
    (hearly : t.isEarly = false) (hed : ∀ e stage, t = .publication e stage → w.HandedOut e)
    (w' : Workspace) (hs' : w'.store = s) (ht' : w'.task? = w.task?) (hn' : w'.started = w.started)
    (hh' : w'.history = c.notes id ++ w.history) :
    Tidy (w'.update id t) ∧ TurnTaken w (w'.update id t) id c (.next s c') := by
  have hcall : w.callAt id = some c := by
    unfold callAt
    rw [ht0]
    exact hc0
  have htidy : Tidy w' := h.of_history ht' hn' _ hh' (fun j r => invoked_notin_notes id j c r)
    (fun j r => returned_notin_notes id j c r)
  constructor
  · apply htidy.update
    · intro he
      rw [hearly] at he
      cases he
    · intro r hm
      rw [hh', List.mem_append] at hm
      exact absurd (hm.resolve_left (returned_notin_notes id id c r)) (h.not_returned hcall r)
    · intro e stage he
      exact (hed e stage he).mono fun x hx => by rw [hh']; exact List.mem_append_right _ hx
  · refine ⟨by rw [← hs']; rfl, fun j => ?_, [], nofun, hh'⟩
    rw [callAt_update (by rw [ht']; exact ht0), ht, callAt_eq_of_task? ht']
    rfl

/-- A turn that ends the call, whose task is then over or tells the client about closed
documents. -/
theorem done_spec {w : Workspace} (h : Tidy w) {id : Nat} {c : Call} {s : Store} {reply : Reply}
    {t0 : Task} (ht0 : w.task? id = some t0) (hc0 : t0.call? = some c) (w' : Workspace)
    (hs' : w'.store = s) (ht' : w'.task? = w.task?) (hn' : w'.started = w.started)
    (hh' : w'.history = .returned id reply :: (c.notes id ++ w.history)) :
    (Tidy (w'.finish id) ∧ TurnTaken w (w'.finish id) id c (.done s reply)) ∧
      ∀ ds, Tidy (w'.update id (.clearing ds)) ∧
        TurnTaken w (w'.update id (.clearing ds)) id c (.done s reply) := by
  have hcall : w.callAt id = some c := by
    unfold callAt
    rw [ht0]
    exact hc0
  -- the history without the reply, for which the call is still under way
  obtain ⟨v, hv⟩ : ∃ v : Workspace, v = { w' with history := c.notes id ++ w.history } := ⟨_, rfl⟩
  have hv' : w' = v.emit (.returned id reply) := by rw [hv]; unfold emit; rw [← hh']
  have hvt : v.task? = w.task? := by rw [← ht', hv]; rfl
  have hvn : v.started = w.started := by rw [← hn', hv]
  have htidy : Tidy v := h.of_history hvt hvn _ (by rw [hv])
    (fun j r => invoked_notin_notes id j c r) (fun j r => returned_notin_notes id j c r)
  have hlt : id < v.started := by rw [hvn]; exact h.lt_started hcall
  refine ⟨⟨?_, ?_⟩, fun ds => ⟨?_, ?_⟩⟩
  · rw [hv']
    refine (htidy.finish id).emit_returned reply hlt fun t ht => ?_
    rw [task?_finish, if_pos rfl] at ht
    cases ht
  · refine ⟨by rw [← hs']; rfl, fun j => ?_, [], nofun, hh'⟩
    rw [callAt_finish, callAt_eq_of_task? ht']
    rfl
  · rw [hv']
    have hup : Tidy (v.update id (.clearing ds)) := by
      apply htidy.update
      · nofun
      · exact fun _ _ => ⟨rfl, rfl⟩
      · nofun
    refine hup.emit_returned reply hlt fun t ht => ?_
    rw [task?_update, if_pos rfl] at ht
    obtain ⟨_, _, rfl⟩ := Option.map_eq_some_iff.1 ht
    exact ⟨rfl, rfl⟩
  · refine ⟨by rw [← hs']; rfl, fun j => ?_, [], nofun, hh'⟩
    rw [callAt_update (by rw [ht']; exact ht0), callAt_eq_of_task? ht']
    rfl

/-- A new publication is at no call. -/
theorem callAt_schedule {w : Workspace} (h : Tidy w) (e : Edition) (j : Nat) :
    (w.schedule e).callAt j = w.callAt j := by
  have hstart : (w.schedule e).task? j
      = if j = w.started then some (.publication e .ready) else w.task? j :=
    task?_start _ h.task?_started j
  unfold callAt
  rw [hstart]
  split
  · rename_i hj
    rw [hj, h.task?_started]
    rfl
  · rfl

theorem advanceCall_spec {w : Workspace} (h : Tidy w) {id : Nat} {purpose : Purpose} {c : Call}
    (ht0 : w.task? id = some (.call purpose c)) :
    Tidy (w.advanceCall id purpose c) ∧
      ((w.store.turn id c = .blocked ∧ Acted w (w.advanceCall id purpose c)) ∨
        TurnTaken w (w.advanceCall id purpose c) id c (w.store.turn id c)) := by
  unfold advanceCall
  cases w.store.turn id c with
  | blocked => exact ⟨h, Or.inl ⟨rfl, .aside rfl (fun _ => rfl) [] nofun rfl⟩⟩
  | next s c' =>
    obtain ⟨htidy, htaken⟩ := next_spec h ht0 rfl (t := .call purpose c') rfl rfl
      (fun _ _ he => by cases he) ((w.note id c).withStore s) rfl (note_task? w id c)
      (note_started w id c) (note_history w id c)
    exact ⟨htidy, Or.inr htaken⟩
  | done s reply =>
    obtain ⟨⟨hfinish, htaken⟩, hclearing⟩ := done_spec h ht0 rfl
      (((w.note id c).withStore s).emit (.returned id reply)) rfl (note_task? w id c)
      (note_started w id c) (by rw [emit_history, withStore_history, note_history])
    simp only [follow]
    split
    · -- the new edition is analysed: a publication starts after the call is over
      rename_i e
      refine ⟨hfinish.schedule ⟨id, List.mem_cons_self ..⟩, Or.inr ⟨rfl, fun j => ?_,
        [.scheduled w.started e], by simp [Event.isAside], ?_⟩⟩
      · rw [callAt_schedule hfinish, callAt_finish]
        split
        · rfl
        · exact callAt_eq_of_task? (note_task? w id c) j
      · change Event.scheduled (w.note id c).started e :: Event.returned id (.opened e)
          :: (w.note id c).history = _
        rw [note_history, note_started]
        rfl
    · exact ⟨(hclearing _).1, Or.inr (hclearing _).2⟩
    · exact ⟨(hclearing _).1, Or.inr (hclearing _).2⟩
    · exact ⟨hfinish, Or.inr htaken⟩

theorem advanceCommit_spec {w : Workspace} (h : Tidy w) {id : Nat} {e : Edition} {c : Call}
    (ht0 : w.task? id = some (.publication e (.committing c))) :
    Tidy (w.advanceCommit id e c) ∧
      ((w.store.turn id c = .blocked ∧ Acted w (w.advanceCommit id e c)) ∨
        TurnTaken w (w.advanceCommit id e c) id c (w.store.turn id c)) := by
  unfold advanceCommit
  cases w.store.turn id c with
  | blocked => exact ⟨h, Or.inl ⟨rfl, .aside rfl (fun _ => rfl) [] nofun rfl⟩⟩
  | next s c' =>
    have hed : ∀ e' stage, Task.publication e (.committing c') = .publication e' stage →
        w.HandedOut e' := by
      intro e' stage he
      cases he
      exact h.editions id e _ ht0
    refine And.imp_right Or.inr (next_spec h ht0 rfl rfl rfl hed _ rfl ?_ ?_ ?_)
    · rw [withStore_task?, note_task?]
      split <;> rfl
    · rw [withStore_started, note_started]
      split <;> rfl
    · rw [withStore_history, note_history]
      split <;> rfl
  | done s reply =>
    obtain ⟨⟨hfinish, htaken⟩, _⟩ := done_spec h ht0 rfl
      (((w.note id c).withStore s).emit (.returned id reply)) rfl (note_task? w id c)
      (note_started w id c) (by rw [emit_history, withStore_history, note_history])
    exact ⟨hfinish, Or.inr htaken⟩

/-- A step that is about no call. -/
theorem aside_spec {w w' : Workspace} (es : List Event) (hs : w'.store = w.store)
    (hc : ∀ j, w'.callAt j = w.callAt j) (hes : ∀ e ∈ es, e.isAside = true)
    (hh : w'.history = es ++ w.history) (h : Tidy w') : Tidy w' ∧ Acted w w' :=
  ⟨h, .aside hs hc es hes hh⟩

theorem drop_spec {w : Workspace} (h : Tidy w) {id : Nat} {t : Task} (ht : w.task? id = some t)
    (hc : t.call? = none) : Tidy (w.drop id) ∧ Acted w (w.drop id) := by
  refine aside_spec [.dropped id] rfl (fun j => ?_) (by simp [Event.isAside]) rfl ?_
  · rw [drop, callAt_finish, callAt_eq_of_task? (emit_task? w _)]
    split
    · rename_i hj
      unfold callAt
      rw [hj, ht]
      exact hc.symm
    · rfl
  · exact (h.of_history (emit_task? w _) rfl [.dropped id] rfl (by simp) (by simp)).finish id

/-- A task that is at no call goes on. -/
theorem advance_aside_spec {w : Workspace} (h : Tidy w) {id : Nat} (hid : w.callAt id = none) :
    Tidy (w.advance id) ∧ Acted w (w.advance id) := by
  unfold advance
  split
  · exact ⟨h, .aside rfl (fun _ => rfl) [] nofun rfl⟩
  · rename_i ht
    rw [callAt, ht] at hid
    cases hid
  · rename_i ht
    refine aside_spec [] rfl (fun j => ?_) nofun rfl (h.finish id)
    rw [callAt_finish]
    split
    · rename_i hj
      unfold callAt
      rw [hj, ht]
      rfl
    · rfl
  · rename_i d ds ht
    have htidy : Tidy (w.clear d.notice) :=
      h.of_history rfl rfl [.cleared d.notice] rfl (by simp) (by simp)
    refine aside_spec [.cleared d.notice] rfl (fun j => ?_) (by simp [Event.isAside]) rfl ?_
    · rw [callAt_update (w := w.clear d.notice) ht]
      split
      · rename_i hj
        unfold callAt
        rw [hj, ht]
        rfl
      · rfl
    · exact htidy.update nofun (fun _ _ => ⟨rfl, rfl⟩) (fun _ _ he => by cases he)
  · rename_i e ht
    split
    · exact drop_spec h ht rfl
    · refine aside_spec [] rfl (fun j => ?_) nofun rfl ?_
      · rw [callAt_update ht]
        split
        · rename_i hj
          unfold callAt
          rw [hj, ht]
          rfl
        · rfl
      · refine h.update (fun _ => h.early id _ ht rfl) (fun r hm => ?_) (fun e' stage he => ?_)
        · exact absurd ((h.answered id r hm).2 _ ht).1 (by simp [Task.isEarly])
        · cases he
          exact h.editions id e _ ht
  · rename_i e ht
    split
    · exact drop_spec h ht rfl
    · exact ⟨h, .aside rfl (fun _ => rfl) [] nofun rfl⟩
  · rename_i ht
    rw [callAt, ht] at hid
    cases hid

/-- What a step of a task does: it is a turn of its call, or is about no call. -/
theorem advance_spec {w : Workspace} (h : Tidy w) (id : Nat) : Tidy (w.advance id) ∧
    ((Acted w (w.advance id) ∧ ∀ c, w.callAt id = some c → w.store.turn id c = .blocked) ∨
      ∃ c, w.callAt id = some c ∧ TurnTaken w (w.advance id) id c (w.store.turn id c)) := by
  cases hid : w.callAt id with
  | none =>
    obtain ⟨htidy, hacted⟩ := advance_aside_spec h hid
    exact ⟨htidy, Or.inl ⟨hacted, nofun⟩⟩
  | some c =>
    obtain ⟨t, ht, hc⟩ := Option.bind_eq_some_iff.1 hid
    have hor : Tidy (w.advance id) ∧
        ((w.store.turn id c = .blocked ∧ Acted w (w.advance id)) ∨
          TurnTaken w (w.advance id) id c (w.store.turn id c)) := by
      unfold advance
      unfold Task.call? at hc
      split at hc
      · cases hc
        rw [ht]
        exact advanceCall_spec h ht
      · cases hc
        rw [ht]
        exact advanceCommit_spec h ht
      · cases hc
    obtain ⟨htidy, ⟨hblocked, hacted⟩ | htaken⟩ := hor
    · exact ⟨htidy, Or.inl ⟨hacted, by rintro _ ⟨⟩; exact hblocked⟩⟩
    · exact ⟨htidy, Or.inr ⟨c, rfl, htaken⟩⟩

theorem analysed_spec {w : Workspace} (h : Tidy w) (id : Nat) (analysis : Analysis) :
    Tidy (w.analysed id analysis) ∧ Acted w (w.analysed id analysis) := by
  unfold analysed
  split
  · rename_i e ds ht
    have hnew := h.early id _ ht rfl
    have hout : ∀ r, Event.returned id r ∉ w.history := fun r hm =>
      absurd ((h.answered id r hm).2 _ ht).1 (by simp [Task.isEarly])
    have hed := h.editions id e _ ht
    obtain ⟨request, hrequest⟩ : ∃ request, request =
      Request.commit e ⟨e.uri, e.version, ds⟩ := ⟨_, rfl⟩
    simp only [← hrequest]
    constructor
    · have hup : Tidy (w.update id (.publication e (.committing request.call))) := by
        refine h.update nofun (fun r hm => absurd hm (hout r)) (fun e' stage he => ?_)
        cases he
        exact hed
      refine hup.emit_invoked request (h.numbered id _ ht) fun t hid => ?_
      rw [task?_update, if_pos rfl, ht] at hid
      cases hid
      rfl
    · refine .invoked id request hnew hout (fun e' r he => ?_) ?_ rfl (fun j => ?_) rfl
      · rw [hrequest] at he
        cases he
        exact hed
      · unfold callAt
        rw [ht]
        rfl
      · rw [callAt_update (w := w.emit _) ht]
        rfl
  · exact drop_spec h ‹_› rfl
  · exact ⟨h, .aside rfl (fun _ => rfl) [] nofun rfl⟩

theorem invoke_spec {w : Workspace} (h : Tidy w) (purpose : Purpose) (request : Request)
    (hed : ∀ e r, request = .commit e r → w.HandedOut e) :
    Tidy (w.invoke purpose request) ∧ Acted w (w.invoke purpose request) := by
  refine ⟨h.invoke purpose request, ?_⟩
  refine .invoked w.started request (fun r hm => ?_) (fun r hm => ?_) hed (callAt_started h) rfl
    (fun j => ?_) rfl
  · exact Nat.lt_irrefl _ (h.known _ r hm)
  · exact Nat.lt_irrefl _ (h.answered _ r hm).1
  · have htask : (w.invoke purpose request).task? j
        = if j = w.started then some (.call purpose request.call) else w.task? j :=
      task?_start _ h.task?_started j
    unfold callAt
    rw [htask]
    split <;> rfl

/-- What a step that advances no task does. -/
theorem act_spec {w : Workspace} (h : Tidy w) {a : Action} (ha : w.Admits a)
    (hne : ∀ id, a ≠ .advance id) : Tidy (w.step a) ∧ Acted w (w.step a) := by
  cases a with
  | invoke purpose request =>
    refine invoke_spec h purpose request fun e r he => ?_
    subst he
    exact ha
  | schedule e =>
    exact aside_spec [.scheduled w.started e] rfl (callAt_schedule h e)
      (by simp [Event.isAside]) rfl (h.schedule ha)
  | clear n =>
    exact aside_spec [.cleared n] rfl (fun _ => rfl) (by simp [Event.isAside]) rfl
      (h.of_history rfl rfl [.cleared n] rfl (by simp) (by simp))
  | cancel scope =>
    exact ⟨h.of_history rfl rfl [.cancelled scope] rfl (by simp) (by simp),
      .cancelled scope ha rfl (fun _ => rfl) rfl⟩
  | advance id => exact absurd rfl (hne id)
  | analysed id analysis => exact analysed_spec h id analysis

/-- What a step of a run does. -/
theorem step_spec {w : Workspace} (h : Tidy w) {a : Action} (ha : w.Admits a) :
    Tidy (w.step a) ∧ Moved w (w.step a) := by
  by_cases hadv : ∃ id, a = .advance id
  · obtain ⟨id, rfl⟩ := hadv
    obtain ⟨htidy, ⟨hacted, _⟩ | ⟨c, hc, htaken⟩⟩ := advance_spec h id
    · exact ⟨htidy, hacted.moved⟩
    · exact ⟨htidy, htaken.moved hc⟩
  · obtain ⟨htidy, hacted⟩ := act_spec h ha fun id he => hadv ⟨id, he⟩
    exact ⟨htidy, hacted.moved⟩

end Workspace

end PromqlServer.Document
