import PromqlServer.Proofs.Document.Editions

/-!
Runs of the document cache in which a call is left only where it awaits: at the lock of a slot, or
while a publish is under way. A stretch is what a call does from one await to the next with no other
call in between (`toNextAwait`), and `Proceeds` are the runs that are made of stretches and of what
the surroundings cause. Between two stretches no call is midway (`Proceeds.atRest`).
-/

namespace PromqlServer.Document

namespace Call

/-- How many turns a call has to go to its next wait, if it is between two waits. -/
def toGo : Call → Nat
  | .cancelSlot _ | .supersede .. | .drain => 2
  | .arrive _ (.commit ..) => 0
  | .arrive .. | .replace .. | .publish .. | .collect .. => 1
  | _ => 0

/-- The call is between two waits. -/
def isMidway (c : Call) : Bool := 0 < c.toGo

theorem toGo_le (c : Call) : c.toGo ≤ 2 := by
  cases c with
  | arrive k work => cases work <;> simp [toGo]
  | _ => simp [toGo]

end Call

/-- Each turn of a call that is midway brings it closer to its next wait. -/
theorem Turned.toGo_lt {s s' : Store} {id : Nat} {c c' : Call} (h : Turned s id c (.next s' c'))
    (hc : c.isMidway = true) : c'.toGo < c.toGo := by
  cases h with
  | @arrived k work => cases work <;> first | cases hc; done | simp [Call.toGo]
  | slotCancelled | superseded | began | drained | joined => simp [Call.toGo]
  | _ => cases hc

namespace Store

/-- The turns of a call up to its next wait, at most `n` after the turn `t`. -/
def toNextAwait (id : Nat) : Nat → Turn → Turn
  | n + 1, .next s c => if c.isMidway then toNextAwait id n (s.turn id c) else .next s c
  | _, t => t

/-- What a call does from one wait to the next. -/
def stretch (s : Store) (id : Nat) (c : Call) : Turn := toNextAwait id 2 (s.turn id c)

end Store

namespace Workspace

/-- A call goes on to its next wait, for at most `n` turns. -/
def toNextAwait (id : Nat) : Nat → Workspace → Workspace
  | 0, w => w
  | n + 1, w =>
    match w.callAt id with
    | some c => if c.isMidway then toNextAwait id n (w.advance id) else w
    | none => w

/-- A task goes on to its next wait. No call takes more than three turns from one wait to the
next. -/
def stretch (w : Workspace) (id : Nat) : Workspace := toNextAwait id 2 (w.advance id)

/-- No call is between two waits. -/
def AtRest (w : Workspace) : Prop := ∀ id c, w.callAt id = some c → c.isMidway = false

/-- One step of the workspace, in which a task goes on to its next wait. -/
def stride (w : Workspace) : Action → Workspace
  | .advance id => w.stretch id
  | a => w.step a

/-- One workspace comes from another by admitted steps, with no task left between two waits. -/
inductive Proceeds (w : Workspace) : Workspace → Prop
  | refl : Proceeds w w
  | stride {w' : Workspace} (h : Proceeds w w') (a : Action) (ha : w'.Admits a) :
      Proceeds w (w'.stride a)

theorem Proceeds.run {w v : Workspace} {actions : List Action} (hv : Proceeds v w)
    (h : AdmitsAll Workspace.stride w actions = true) :
    Proceeds v (actions.foldl Workspace.stride w) := by
  induction actions generalizing w with
  | nil => exact hv
  | cons a as ih =>
    rw [AdmitsAll, Bool.and_eq_true, decide_eq_true_eq] at h
    exact ih (hv.stride a h.1) h.2

theorem stride_eq_step {w : Workspace} {a : Action} (h : ∀ id, a ≠ .advance id) :
    w.stride a = w.step a := by
  cases a with
  | advance id => exact absurd rfl (h id)
  | _ => rfl

/-- What a stretch of the call `id` does. -/
structure StretchTaken (w w' : Workspace) (id : Nat) (t : Turn) : Prop where
  store : t.store? = some w'.store
  calls : ∀ j, w'.callAt j = if j = id then t.call? else w.callAt j
  events : ∃ es, w'.history = es ++ w.history ∧ (∀ j q, Event.invoked j q ∉ es) ∧
    (∀ j r, Event.returned j r ∈ es ↔ j = id ∧ ∃ s, t = .done s r) ∧
    ∀ scope, Event.cancelled scope ∉ es

theorem TurnTaken.stretchTaken {w w' : Workspace} {id : Nat} {c : Call} {t : Turn}
    (h : TurnTaken w w' id c t) : StretchTaken w w' id t := by
  obtain ⟨es, hes, hh⟩ := h.history
  refine ⟨h.store, h.calls, es ++ (t.replies id ++ c.notes id), by rw [hh]; simp, ?_, ?_, ?_⟩
  · intro j q hm
    have haside : Event.invoked j q ∉ es := fun he => by cases hes _ he
    have hnotes := invoked_notin_notes id j c q
    cases t <;> simp [Turn.replies, haside, hnotes] at hm
  · intro j r
    have haside : Event.returned j r ∉ es := fun he => by cases hes _ he
    have hnotes := returned_notin_notes id j c r
    cases t <;> simp [Turn.replies, haside, hnotes, eq_comm]
  · intro scope hm
    have haside : Event.cancelled scope ∉ es := fun he => by cases hes _ he
    have hnotes : Event.cancelled scope ∉ c.notes id := by
      intro he
      obtain ⟨_, _, _, he⟩ | ⟨_, _, _, he⟩ := Call.mem_notes he <;> cases he
    cases t <;> simp [Turn.replies, haside, hnotes] at hm

/-- A stretch that goes on with one more turn. -/
theorem StretchTaken.trans {w w' w'' : Workspace} {id : Nat} {c : Call} {s : Store} {t : Turn}
    (h : StretchTaken w w' id (.next s c)) (h' : StretchTaken w' w'' id t) :
    StretchTaken w w'' id t := by
  obtain ⟨es, hh, hinv, hret, hcan⟩ := h.events
  obtain ⟨es', hh', hinv', hret', hcan'⟩ := h'.events
  refine ⟨h'.store, fun j => ?_, es' ++ es, by rw [hh', hh]; simp, ?_, ?_, ?_⟩
  · rw [h'.calls, h.calls]
    split <;> rfl
  · intro j q hm
    exact (List.mem_append.1 hm).elim (hinv' j q) (hinv j q)
  · intro j r
    rw [List.mem_append, hret', hret]
    constructor
    · rintro (hd | ⟨_, _, hd⟩)
      · exact hd
      · cases hd
    · exact Or.inl
  · intro scope hm
    exact (List.mem_append.1 hm).elim (hcan' scope) (hcan scope)

/-- A call that is midway does not have to wait. -/
theorem Sound.turn_ne_blocked {w : Workspace} (h : Sound w) {id : Nat} {c : Call}
    (hcall : w.callAt id = some c) (hc : c.isMidway = true) : w.store.turn id c ≠ .blocked := by
  have hheld : ∀ k, c.place? = some k → c.holdsLock = true → ∃ d, w.store.held id k = some d := by
    intro k hp hh
    have hhead := h.locked.head id c k hcall hp hh
    cases hk : w.store.slots[k]? with
    | none =>
      rw [Store.queueOf, hk] at hhead
      cases hhead
    | some d =>
      rw [Store.queueOf_eq hk] at hhead
      exact ⟨d, Store.held_eq_some_iff.2 ⟨hk, hhead⟩⟩
  cases c with
  | supersede k content version =>
    obtain ⟨d, hd⟩ := hheld k rfl rfl
    simp [Store.turn, hd]
  | replace k content version =>
    obtain ⟨d, hd⟩ := hheld k rfl rfl
    simp [Store.turn, hd]
  | cancelSlot k | arrive k work | publish k r | drain => simp [Store.turn]
  | collect ks closed => cases ks <;> simp [Store.turn]
  | _ => cases hc

/-- A call at a wait goes no further. -/
theorem toNextAwait_of_rest {w : Workspace} {id : Nat} (n : Nat)
    (h : ∀ c, w.callAt id = some c → c.isMidway = false) : toNextAwait id n w = w := by
  cases n with
  | zero => rfl
  | succ n =>
    rw [toNextAwait]
    cases hc : w.callAt id with
    | none => rfl
    | some c => simp [h c hc]

theorem toNextAwait_spec {w : Workspace} {id : Nat} (n : Nat) {w' : Workspace} {t : Turn}
    (hs : StretchTaken w w' id t) (hw' : Sound w') (hr : Reaches w w')
    (hn : ∀ c, w'.callAt id = some c → c.toGo ≤ n) :
    StretchTaken w (toNextAwait id n w') id (Store.toNextAwait id n t) ∧
      Reaches w (toNextAwait id n w') ∧
      ∀ c, (toNextAwait id n w').callAt id = some c → c.isMidway = false := by
  induction n generalizing w' t with
  | zero =>
    refine ⟨by simpa [toNextAwait, Store.toNextAwait] using hs, hr, fun c hc => ?_⟩
    have := hn c hc
    simpa [Call.isMidway] using this
  | succ n ih =>
    have hself : w'.callAt id = t.call? := by rw [hs.calls, if_pos rfl]
    cases t with
    | blocked => cases hs.store
    | done s r =>
      have hnone : ∀ c, w'.callAt id = some c → c.isMidway = false := by
        intro c hc
        rw [hself] at hc
        cases hc
      rw [toNextAwait_of_rest _ hnone]
      exact ⟨hs, hr, hnone⟩
    | next s c =>
      have hc : w'.callAt id = some c := hself
      have hstore : s = w'.store := Option.some.inj hs.store
      by_cases hmid : c.isMidway = true
      · -- one more turn, which is not the last one of the call or comes closer to the next wait
        rw [toNextAwait, hc, Store.toNextAwait]
        simp only [hmid, if_true]
        rw [hstore]
        have hne := hw'.turn_ne_blocked hc hmid
        obtain ⟨htidy, ⟨_, hblocked⟩ | ⟨c', hc', htaken⟩⟩ := advance_spec hw'.tidy id
        · exact absurd (hblocked c hc) hne
        · rw [hc] at hc'
          cases hc'
          refine ih (hs.trans htaken.stretchTaken) (hw'.step (a := .advance id) trivial).1
            (hr.step (.advance id) trivial) fun c' hc'' => ?_
          have hturn := turn_cases w'.store id c
          rw [htaken.calls, if_pos rfl] at hc''
          cases ht : w'.store.turn id c with
          | blocked => exact absurd ht hne
          | done s' r => rw [ht] at hc''; cases hc''
          | next s' c2 =>
            rw [ht] at hc'' hturn
            cases hc''
            have hlt := hturn.toGo_lt hmid
            have hle := hn c hc
            omega
      · have hwait : ∀ c', w'.callAt id = some c' → c'.isMidway = false := by
          intro c' hc'
          rw [hc] at hc'
          cases hc'
          simpa using hmid
        have hstop : Store.toNextAwait id (n + 1) (.next s c) = .next s c := by
          simp [Store.toNextAwait, hmid]
        rw [toNextAwait_of_rest _ hwait, hstop]
        exact ⟨hs, hr, hwait⟩

theorem Acted.atRest {w w' : Workspace} (h : Acted w w') (hrest : AtRest w) : AtRest w' := by
  intro id c hid
  cases h with
  | aside _ hc => exact hrest id c (by rw [← hc, hid])
  | cancelled _ _ _ hc => exact hrest id c (by rw [← hc, hid])
  | invoked i request _ _ _ _ _ hc =>
    rw [hc] at hid
    split at hid
    · cases hid
      cases request <;> rfl
    · exact hrest id c hid

/-- What a stretch comes to. -/
theorem stretch_spec {w : Workspace} (hw : Sound w) (hrest : AtRest w) (id : Nat) :
    Reaches w (w.stretch id) ∧ AtRest (w.stretch id) ∧ (Acted w (w.stretch id) ∨
      ∃ c, w.callAt id = some c ∧ StretchTaken w (w.stretch id) id (w.store.stretch id c)) := by
  have hreach : Reaches w (w.advance id) := Reaches.refl.step (.advance id) trivial
  obtain ⟨htidy, ⟨hacted, _⟩ | ⟨c, hc, htaken⟩⟩ := advance_spec hw.tidy id
  · have hrest' := hacted.atRest hrest
    rw [stretch, toNextAwait_of_rest 2 (hrest' id)]
    exact ⟨hreach, hrest', Or.inl hacted⟩
  · obtain ⟨hstretch, hreach', hwait⟩ := toNextAwait_spec 2 htaken.stretchTaken
      (hw.step (a := .advance id) trivial).1 hreach fun c _ => c.toGo_le
    refine ⟨hreach', fun j c' hj => ?_, Or.inr ⟨c, hc, hstretch⟩⟩
    by_cases hji : j = id
    · rw [hji] at hj
      exact hwait c' hj
    · refine hrest j c' ?_
      rw [← hj]
      have hsame : (toNextAwait id 2 (w.advance id)).callAt j = w.callAt j := by
        rw [hstretch.calls, if_neg hji]
      exact hsame.symm

/-- What a step does that leaves no task between two waits. -/
theorem stride_spec {w : Workspace} (hw : Sound w) (hrest : AtRest w) {a : Action}
    (ha : w.Admits a) : Reaches w (w.stride a) ∧ AtRest (w.stride a) ∧ (Acted w (w.stride a) ∨
      ∃ id c, a = .advance id ∧ w.callAt id = some c ∧
        StretchTaken w (w.stride a) id (w.store.stretch id c)) := by
  by_cases hadv : ∃ id, a = .advance id
  · obtain ⟨id, rfl⟩ := hadv
    obtain ⟨hr, hrest', hdone⟩ := stretch_spec hw hrest id
    exact ⟨hr, hrest', hdone.imp_right fun ⟨c, hc, hs⟩ => ⟨id, c, rfl, hc, hs⟩⟩
  · have hne : ∀ id, a ≠ .advance id := fun id he => hadv ⟨id, he⟩
    rw [stride_eq_step hne]
    have hacted := (act_spec hw.tidy ha hne).2
    exact ⟨Reaches.refl.step a ha, hacted.atRest hrest, Or.inl hacted⟩

theorem Proceeds.spec {lifetime : Scope} {w : Workspace} (h : Proceeds (fresh lifetime) w) :
    Reaches (fresh lifetime) w ∧ AtRest w := by
  induction h with
  | refl => exact ⟨.refl, by simp [AtRest, fresh, callAt, task?]⟩
  | stride _ a ha ih =>
    obtain ⟨hr, hrest⟩ := ih
    obtain ⟨hr', hrest', _⟩ := stride_spec (hr.sound (sound_fresh lifetime)) hrest ha
    exact ⟨hr.trans hr', hrest'⟩

end Workspace

end PromqlServer.Document
