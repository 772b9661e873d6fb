import PromqlServer.Proofs.Document.Closings
import PromqlServer.Proofs.Document.Stretches

/-!
Who waits for whom in the document cache. A call waits only at the lock of a slot that its request
is about, and there only behind the call that came first: either this one is inside its publish, or
it has been given the lock and can go on (`waiting_is_local`). No call that has a lock waits for
another one, so that calls never wait for each other in a circle.
-/

namespace PromqlServer.Document

/-! ## Turns that have to wait -/

namespace Store

theorem check_ne_blocked (s : Store) (k : Nat) (d : Slot) (work : Work) :
    s.check k d work ≠ .blocked := by
  unfold check
  cases work with
  | close => nofun
  | change content version =>
    simp only
    split
    · nofun
    · split <;> nofun
  | version | snapshot | commit =>
    simp only
    split <;> nofun

/-- A call has to wait only at a lock that another call has. -/
theorem not_held_of_blocked {s : Store} {id : Nat} {c : Call} (h : s.turn id c = .blocked) :
    ∃ k, c.place? = some k ∧ s.held id k = none := by
  cases c with
  | queued k work =>
    simp only [turn] at h
    split at h
    · rename_i hnone
      exact ⟨k, rfl, hnone⟩
    · exact absurd h (check_ne_blocked s k _ work)
  | supersede k content version | replace k content version | collecting k ks closed =>
    simp only [turn] at h
    split at h
    · rename_i hnone
      exact ⟨k, rfl, hnone⟩
    · cases h
  | find uri work | remove uri =>
    simp only [turn] at h
    split at h <;> cases h
  | collect ks closed => cases ks <;> cases h
  | _ => cases h

theorem held_of_head {s : Store} {id k : Nat} (h : (s.queueOf k).head? = some id) :
    ∃ d, s.held id k = some d := by
  cases hk : s.slots[k]? with
  | none =>
    rw [queueOf, hk] at h
    cases h
  | some d =>
    rw [queueOf_eq hk] at h
    exact ⟨d, held_eq_some_iff.2 ⟨hk, h⟩⟩

/-- The call at the head of the line does not have to wait. -/
theorem turn_ne_blocked_of_head {s : Store} {id k : Nat} {c : Call} (hp : c.place? = some k)
    (h : (s.queueOf k).head? = some id) : s.turn id c ≠ .blocked := by
  intro hblocked
  obtain ⟨j, hj, hnone⟩ := not_held_of_blocked hblocked
  obtain ⟨d, hd⟩ := held_of_head h
  rw [hp] at hj
  cases hj
  rw [hd] at hnone
  cases hnone

end Store

/-- A turn brings a call on. -/
theorem Turned.call?_ne {s : Store} {id : Nat} {c : Call} {t : Turn} (h : Turned s id c t) :
    t.call? ≠ some c := by
  cases h <;> nofun

/-- Requests that are answered without a lock. -/
def Request.isInstant : Request → Bool
  | .track .. | .isOpen _ | .size => true
  | _ => false

/-- A request that needs no lock is answered in the first turn of its call. -/
theorem Serves.done_of_isInstant {s s' : Store} {r : Request} {c : Call} (h : Serves s r c)
    (hr : r.isInstant = true) (id : Nat) : ∃ s'' reply, s'.turn id c = .done s'' reply := by
  cases h with
  | start hc =>
    subst hc
    cases r with
    | track | isOpen | size => exact ⟨_, _, rfl⟩
    | _ => cases hr
  | arrive hwork | queued hwork => cases r <;> first | cases hr; done | cases hwork
  | _ => cases hr

namespace Workspace

/-- The call has to wait. -/
def Waiting (w : Workspace) (id : Nat) : Prop :=
  ∃ c, w.callAt id = some c ∧ w.store.turn id c = .blocked

/-- The call is past no check and does not have to wait: it has not run since it got what it
waited for. -/
def CanGoOn (w : Workspace) (id : Nat) : Prop :=
  ∃ c, w.callAt id = some c ∧ c.holdsLock = false ∧ w.store.turn id c ≠ .blocked

/-- The call is inside a publication of the document. -/
def Publishing (w : Workspace) (id k : Nat) : Prop := ∃ r, w.callAt id = some (.publishing k r)

/-- The call has the lock of the document, and `id` came to the lock after it. -/
def Ahead (w : Workspace) (k ahead id : Nat) : Prop :=
  ∃ rest, w.store.queueOf k = ahead :: rest ∧ id ∈ rest

/-- What can go on does so with its next step. -/
theorem CanGoOn.step {w : Workspace} {id : Nat} (h : w.CanGoOn id) (hw : Tidy w) :
    (w.step (.advance id)).callAt id ≠ w.callAt id := by
  obtain ⟨c, hc, _, hturn⟩ := h
  obtain ⟨_, ⟨_, hblocked⟩ | ⟨c', hc', htaken⟩⟩ := advance_spec hw id
  · exact absurd (hblocked c hc) hturn
  · rw [hc] at hc'
    cases hc'
    have hnext : (w.step (.advance id)).callAt id = (w.store.turn id c).call? := by
      rw [show w.step (.advance id) = w.advance id from rfl, htaken.calls, if_pos rfl]
    rw [hnext, hc]
    exact (turn_cases w.store id c).call?_ne

/-- Between two stretches only a publication is past a check. -/
theorem AtRest.holdsLock {w : Workspace} (h : AtRest w) {id : Nat} {c : Call}
    (hc : w.callAt id = some c) (hne : ∀ k r, c ≠ .publishing k r) : c.holdsLock = false := by
  have hrest := h id c hc
  cases c with
  | supersede | replace | publish => cases hrest
  | publishing k r => exact absurd rfl (hne k r)
  | _ => rfl

/-- A call that waits stands behind another one, which is inside its publication or can go on. -/
theorem Waiting.ahead {w : Workspace} {id : Nat} (h : w.Waiting id) (hw : Sound w)
    (hrest : AtRest w) : ∃ c k ahead, w.callAt id = some c ∧ c.place? = some k ∧
      w.Ahead k ahead id ∧ (w.Publishing ahead k ∨ w.CanGoOn ahead) := by
  obtain ⟨c, hc, hblocked⟩ := h
  obtain ⟨k, hk, _⟩ := Store.not_held_of_blocked hblocked
  have hmem : id ∈ w.store.queueOf k := (hw.locked.mem_queueOf hc k).2 hk
  obtain ⟨ahead, rest, hqueue⟩ := List.exists_cons_of_ne_nil (List.ne_nil_of_mem hmem)
  have hhead : (w.store.queueOf k).head? = some ahead := by rw [hqueue]; rfl
  have hne : id ≠ ahead := by
    rintro rfl
    exact Store.turn_ne_blocked_of_head hk hhead hblocked
  obtain ⟨c', hc', hk'⟩ := (hw.locked.mem k ahead).1 (by rw [hqueue]; exact List.mem_cons_self ..)
  refine ⟨c, k, ahead, hc, hk, ⟨rest, hqueue, ?_⟩, ?_⟩
  · rw [hqueue] at hmem
    exact (List.mem_cons.1 hmem).resolve_left hne
  · by_cases hpublishing : ∃ j r, c' = .publishing j r
    · obtain ⟨j, r, rfl⟩ := hpublishing
      cases hk'
      exact Or.inl ⟨r, hc'⟩
    · exact Or.inr ⟨c', hc', hrest.holdsLock hc' fun j r he => hpublishing ⟨j, r, he⟩,
        Store.turn_ne_blocked_of_head hk' hhead⟩

/-! ## What a shutdown waits for -/

/-- The document was in the table when the call `id` emptied it. -/
def DrainedBy (lifetime : Scope) (w : Workspace) (id k : Nat) : Prop :=
  ∃ w', Reaches (fresh lifetime) w' ∧ w'.callAt id = some .drain ∧ w'.store.Tracked k ∧
    Reaches (w'.step (.advance id)) w

theorem DrainedBy.step {lifetime : Scope} {w : Workspace} {id k : Nat}
    (h : DrainedBy lifetime w id k) {a : Action} (ha : w.Admits a) :
    DrainedBy lifetime (w.step a) id k := by
  obtain ⟨w', hr, hdrain, htracked, hon⟩ := h
  exact ⟨w', hr, hdrain, htracked, hon.step a ha⟩

/-- A shutdown goes on to close documents that it has found in the table. -/
theorem Turned.collects_inv {s s' : Store} {id : Nat} {c c' : Call}
    (h : Turned s id c (.next s' c')) (hc' : c'.isCollecting = true) {k : Nat}
    (hk : k ∈ c'.removes) :
    (c.isCollecting = true ∧ k ∈ c.removes) ∨ (c = .drain ∧ s.Tracked k) := by
  cases h with
  | drained =>
    obtain ⟨⟨uri, j⟩, hmem, rfl⟩ := List.mem_map.1 hk
    exact Or.inr ⟨rfl, uri, hmem⟩
  | joined => exact Or.inl ⟨rfl, hk⟩
  | taken => exact Or.inl ⟨rfl, List.mem_cons_of_mem _ hk⟩
  | _ => cases hc'

/-- The documents that a shutdown has still to close are those that it has drained. -/
theorem Reaches.drainedBy {lifetime : Scope} {w : Workspace} (h : Reaches (fresh lifetime) w)
    {id k : Nat} {c : Call} (hc : w.callAt id = some c) (hcollecting : c.isCollecting = true)
    (hk : k ∈ c.removes) : DrainedBy lifetime w id k := by
  induction h generalizing id c with
  | refl => simp [fresh, callAt, task?] at hc
  | @step w h a ha ih =>
    have hw := h.sound (sound_fresh lifetime)
    have hsame : w.callAt id = some c → DrainedBy lifetime (w.step a) id k := fun hold =>
      (ih hold hcollecting hk).step ha
    have hacted : Acted w (w.step a) → DrainedBy lifetime (w.step a) id k := by
      intro hacted
      cases hacted with
      | aside _ hcalls => exact hsame (by rw [← hcalls]; exact hc)
      | cancelled _ _ _ hcalls => exact hsame (by rw [← hcalls]; exact hc)
      | invoked i request _ _ _ _ _ hcalls =>
        rw [hcalls] at hc
        split at hc
        · cases hc
          cases request <;> cases hcollecting
        · exact hsame hc
    by_cases hadv : ∃ i, a = .advance i
    · obtain ⟨i, rfl⟩ := hadv
      obtain ⟨_, ⟨hdone, _⟩ | ⟨ci, hci, htaken⟩⟩ := advance_spec hw.tidy i
      · exact hacted hdone
      · rw [show w.step (.advance i) = w.advance i from rfl, htaken.calls] at hc
        split at hc
        · rename_i hid
          subst hid
          have hturned := turn_cases w.store id ci
          cases ht : w.store.turn id ci with
          | blocked | done => rw [ht] at hc; cases hc
          | next s c' =>
            rw [ht] at hc hturned
            cases hc
            rcases Turned.collects_inv hturned hcollecting hk with ⟨hold, hmem⟩ | ⟨rfl, htracked⟩
            · exact (ih hci hold hmem).step ha
            · exact ⟨w, h, hci, htracked, .refl⟩
        · exact hsame hc
    · exact hacted (act_spec hw.tidy ha fun i he => hadv ⟨i, he⟩).2

/-! ## Who waits for whom -/

/-- The document `k` is one that the request of the call `id` is about. -/
def Regards (lifetime : Scope) (w : Workspace) (id k : Nat) : Request → Prop
  | .change uri _ _ | .close uri | .version uri | .snapshot uri =>
    ∃ d, w.store.dataOf k = some d ∧ d.uri = uri
  | .commit edition _ => k = edition.slot
  | .shutdown => DrainedBy lifetime w id k
  | .track .. | .isOpen _ | .size => False

/-- A call stands only at the lock of a document that its request is about. -/
theorem Reaches.regards {lifetime : Scope} {w : Workspace} (h : Reaches (fresh lifetime) w)
    {id k : Nat} {r : Request} {c : Call} (hc : w.callAt id = some c)
    (hr : Event.invoked id r ∈ w.history) (hk : c.place? = some k) :
    Regards lifetime w id k r := by
  obtain ⟨q, hq, hserves⟩ := (h.sound (sound_fresh lifetime)).staged.calls id c hc
  cases h.publishOrder.once id q r hq hr
  cases hserves with
  | start hcall =>
    subst hcall
    cases r <;> cases hk
  | queued hwork hd hu =>
    cases hk
    cases r <;> cases hwork
    all_goals exact ⟨_, hd, hu⟩
  | supersede hd hu | replace hd hu =>
    cases hk
    exact ⟨_, hd, hu⟩
  | committing | publish | publishing =>
    cases hk
    rfl
  | collecting =>
    cases hk
    exact h.drainedBy hc rfl (List.mem_cons_self ..)
  | _ => cases hk

/-- Opening a document and asking for the tracked ones never waits. Any other call waits only for a
document that it is about, and only behind a call that is inside its publication of this document or
has been given the lock and can go on; a shutdown waits only for documents that it has drained. So
where no publication is under way, some call can go on. -/
theorem waiting_is_local {lifetime : Scope} {w : Workspace} (h : Proceeds (fresh lifetime) w) :
    (∀ id c r, w.callAt id = some c → Event.invoked id r ∈ w.history → r.isInstant = true →
      ∃ s reply, w.store.turn id c = .done s reply) ∧
    (∀ id r, Event.invoked id r ∈ w.history → w.Waiting id →
      ∃ k ahead, Regards lifetime w id k r ∧ w.Ahead k ahead id ∧
        (w.Publishing ahead k ∨ w.CanGoOn ahead)) ∧
    ((∀ id k, ¬ w.Publishing id k) → ∀ id c, w.callAt id = some c →
      ∃ j, w.CanGoOn j ∧ (w.step (.advance j)).callAt j ≠ w.callAt j) := by
  obtain ⟨hr, hrest⟩ := h.spec
  have hw := hr.sound (sound_fresh lifetime)
  refine ⟨fun id c r hc hinvoked hinstant => ?_, fun id r hinvoked hwait => ?_,
    fun hnone id c hc => ?_⟩
  · obtain ⟨q, hq, hserves⟩ := hw.staged.calls id c hc
    cases hr.publishOrder.once id q r hq hinvoked
    exact hserves.done_of_isInstant hinstant id
  · obtain ⟨c, k, ahead, hc, hk, hahead, hmove⟩ := hwait.ahead hw hrest
    exact ⟨k, ahead, hr.regards hc hinvoked hk, hahead, hmove⟩
  · suffices hmove : ∃ j, w.CanGoOn j from hmove.imp fun j hj => ⟨hj, hj.step hw.tidy⟩
    by_cases hblocked : w.store.turn id c = .blocked
    · obtain ⟨_, k, ahead, _, _, _, hpublishing | hmove⟩ :=
        Waiting.ahead ⟨c, hc, hblocked⟩ hw hrest
      · exact absurd hpublishing (hnone ahead k)
      · exact ⟨ahead, hmove⟩
    · refine ⟨id, c, hc, hrest.holdsLock hc fun k r he => hnone id k ⟨r, ?_⟩, hblocked⟩
      rw [hc, he]

/-- A change and a shutdown come while the report of a document goes out. -/
def crowd : List Action :=
  [.invoke .answer (.track ⟨"file:///rules"⟩ "up" 1), .advance 0,
    .invoke .answer (.commit ⟨⟨"file:///rules"⟩, 1, "up", 0, [0, 0]⟩ ⟨⟨"file:///rules"⟩, 1, []⟩),
    .advance 1, .advance 1,
    .invoke .answer (.change ⟨"file:///rules"⟩ "down" 2), .advance 2, .advance 2,
    .invoke .answer .shutdown, .advance 3, .advance 3]

/-- The shutdown waits for the document that it has drained; when the publication is over, the call
behind it goes on. -/
theorem waiting_is_local_crowd :
    (∃ k ahead, DrainedBy [] (crowd.foldl stride (fresh [])) 3 k ∧
      (crowd.foldl stride (fresh [])).Ahead k ahead 3) ∧
    ∃ j, ((crowd.foldl stride (fresh [])).stride (.advance 1)).CanGoOn j := by
  have hrun : Proceeds (fresh []) (crowd.foldl stride (fresh [])) := .run .refl (by decide)
  obtain ⟨_, hwait, _⟩ := waiting_is_local hrun
  obtain ⟨_, _, hmove⟩ := waiting_is_local (hrun.stride (.advance 1) (by decide))
  constructor
  · obtain ⟨k, ahead, hdrained, hahead, _⟩ :=
      hwait 3 .shutdown (by decide) ⟨.collecting 0 [] [], by decide, by decide⟩
    exact ⟨k, ahead, hdrained, hahead⟩
  · have htasks : ((crowd.foldl stride (fresh [])).stride (.advance 1)).tasks =
        [(2, .call .answer (.queued 0 (.change "down" 2))),
          (3, .call .answer (.collecting 0 [] []))] := by decide
    have hnone : ∀ id k,
        ¬ ((crowd.foldl stride (fresh [])).stride (.advance 1)).Publishing id k := by
      rintro id k ⟨r, hr⟩
      rw [callAt, task?, htasks] at hr
      by_cases h2 : id = 2
      · subst h2
        cases hr
      · by_cases h3 : id = 3
        · subst h3
          cases hr
        · simp [Ne.symm h2, Ne.symm h3] at hr
    obtain ⟨j, hj, _⟩ := hmove hnone 2 (.queued 0 (.change "down" 2)) (by decide)
    exact ⟨j, hj⟩

end Workspace

end PromqlServer.Document
