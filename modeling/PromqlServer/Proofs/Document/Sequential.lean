import PromqlServer.Proofs.Document.Runs

/-!
A document cache that is used by one call at a time. `perform` is what a request does and returns
then, in one go; `call_spec` says that a call on a workspace with nothing under way comes to just
this.
-/

namespace PromqlServer.Document

namespace Store

/-- What a call does under the lock of the slot `k`, whose state is `d`, if no other call comes. -/
def attend (s : Store) (k : Nat) (d : Slot) : Work → Store × Reply
  | .close => (s, .closed d.close)
  | .change content version =>
    if s.isCancelled (s.slotScope k) then (s, .failed (.expired d.uri))
    else if version ≤ d.version then (s, .failed (.outOfOrder d.uri d.version version))
    else (s.cancel (s.editionScope k d.revision)).replace k d content version
  | .version =>
    if s.isCancelled (s.slotScope k) then (s, .failed (.expired d.uri))
    else (s, .version d.version)
  | .snapshot =>
    if s.isCancelled (s.slotScope k) then (s, .failed (.expired d.uri))
    else (s, .snapshot ⟨d.uri, d.version, d.content, d.report⟩)
  | .commit edition report =>
    if s.isCancelled edition.scope || d.version ≠ edition.version then
      (s, .failed (.expired d.uri))
    else (s.record k report, .committed)

/-- The slot of a tracked document, with its state. -/
def document? (s : Store) (uri : Uri) : Option (Nat × Slot) :=
  (s.lookup uri).bind fun k => (s.slots[k]?).map fun d => (k, d)

/-- What a call does with a tracked document. -/
def visit (s : Store) (uri : Uri) (work : Work) : Store × Reply :=
  match s.document? uri with
  | none => (s, .failed (.expired uri))
  | some (k, d) => s.attend k d work

/-- The slots of a shutdown, as they are closed. -/
def closeAll (s : Store) (ks : List Nat) : List Closed :=
  ks.filterMap fun k => (s.slots[k]?).map Slot.close

theorem closeAll_cons {s : Store} {k : Nat} {d : Slot} (hd : s.slots[k]? = some d) (ks : List Nat) :
    s.closeAll (k :: ks) = d.close :: s.closeAll ks := by
  simp [closeAll, hd]

/-- What a request does and returns, if no other call is under way. -/
def perform (s : Store) : Request → Store × Reply
  | .track uri content version => s.track uri content version
  | .change uri content version => s.visit uri (.change content version)
  | .version uri => s.visit uri .version
  | .snapshot uri => s.visit uri .snapshot
  | .isOpen uri => (s, .isOpen (s.lookup uri).isSome)
  | .size => (s, .size s.table.length)
  | .close uri =>
    match s.document? uri with
    | none => (s, .failed (.expired uri))
    | some (k, d) =>
      (cancel { s with table := s.table.filter fun entry => entry.1 ≠ uri } (s.slotScope k),
        .closed d.close)
  | .commit edition report =>
    match s.slots[edition.slot]? with
    | none => (s, .failed (.expired edition.uri))
    | some d => s.attend edition.slot d (.commit edition report)
  | .shutdown =>
    ({ s.cancel s.lifetime with table := [] }, .drained (s.closeAll (s.table.map Prod.snd)))

/-- No call is at a lock, and the table names slots. -/
structure Quiet (s : Store) : Prop where
  queues : ∀ (k : Nat) (d : Slot), s.slots[k]? = some d → d.queue = []
  table : ∀ entry ∈ s.table, entry.2 < s.slots.length
  size : s.table.length ≤ s.slots.length

theorem quiet_fresh (lifetime : Scope) : Quiet { lifetime } where
  queues := by simp
  table := by simp
  size := Nat.le_refl _

/-- A request names a document that there is. -/
def Accepts (s : Store) : Request → Prop
  | .commit edition _ => edition.slot < s.slots.length
  | _ => True

theorem ext_slots {s s' : Store} (hl : s.lifetime = s'.lifetime) (hc : s.cancelled = s'.cancelled)
    (ht : s.table = s'.table) (hs : ∀ k : Nat, s.slots[k]? = s'.slots[k]?) : s = s' := by
  cases s
  cases s'
  simp only at hl hc ht hs
  rw [hl, hc, ht, List.ext_getElem? hs]

/-- A call that comes to a free lock, does something to the document and goes away again. -/
theorem release_modifySlot_arrive {s : Store} {k : Nat} (id : Nat) (f : Slot → Slot)
    (hf : ∀ d queue, f { d with queue } = { f d with queue })
    (hq : ∀ d, s.slots[k]? = some d → d.queue = []) :
    ((s.arrive id k).modifySlot k f).release k = (s.modifySlot k f).release k := by
  refine ext_slots rfl rfl rfl fun j => ?_
  simp only [release, arrive, getElem?_modifySlot]
  cases hj : s.slots[j]? with
  | none => rfl
  | some d =>
    by_cases hkj : k = j
    · subst hkj
      have hqueue : (f d).queue = d.queue := by
        have hfd : f d = { f d with queue := d.queue } := hf d d.queue
        rw [hfd]
      simp only [Option.map_some, if_true]
      rw [hf d, hqueue, hq d hj]
      rfl
    · simp [hkj]

theorem release_arrive {s : Store} {k : Nat} (id : Nat)
    (hq : ∀ d, s.slots[k]? = some d → d.queue = []) : (s.arrive id k).release k = s := by
  refine ext_slots rfl rfl rfl fun j => ?_
  simp only [release, arrive, getElem?_modifySlot]
  cases hj : s.slots[j]? with
  | none => rfl
  | some d =>
    by_cases hkj : k = j
    · subst hkj
      have := hq d hj
      cases d
      simp_all
    · simp [hkj]

theorem replace_arrive {s : Store} {k : Nat} (id : Nat) (d : Slot) (queue : List Nat)
    (content : String) (version : Int) (hq : ∀ d, s.slots[k]? = some d → d.queue = []) :
    (s.arrive id k).replace k { d with queue } content version
      = s.replace k d content version := by
  have hrevise := release_modifySlot_arrive id
    (fun d' => { d' with version, content, revision := d.revision + 1, report := none })
    (fun _ _ => rfl) hq
  exact Prod.ext hrevise rfl

theorem record_arrive {s : Store} {k : Nat} (id : Nat) (report : Report)
    (hq : ∀ d, s.slots[k]? = some d → d.queue = []) :
    (s.arrive id k).record k report = s.record k report :=
  release_modifySlot_arrive id _ (fun _ _ => rfl) hq

theorem held_arrive {s : Store} {k : Nat} {d : Slot} (id : Nat) (hd : s.slots[k]? = some d)
    (hq : d.queue = []) : (s.arrive id k).held id k = some { d with queue := [id] } := by
  rw [held_eq_some_iff, arrive, getElem?_modifySlot, hd]
  simp [hq]

end Store

/-! ## A call with no other call in between -/

/-- The call comes to its end in `n` turns. -/
inductive Completes (id : Nat) : Nat → Store → Call → Store → Reply → Prop
  | done {s s' : Store} {c : Call} {reply : Reply} (h : s.turn id c = .done s' reply) :
      Completes id 1 s c s' reply
  | next {n : Nat} {s s' s'' : Store} {c c' : Call} {reply : Reply}
      (h : s.turn id c = .next s' c') (hn : Completes id n s' c' s'' reply) :
      Completes id (n + 1) s c s'' reply

namespace Store

/-- Under a lock that was free. -/
theorem completes_queued {s : Store} {k : Nat} {d : Slot} (id : Nat) (hd : s.slots[k]? = some d)
    (hq : d.queue = []) (work : Work) : ∃ n, n ≤ 3 ∧
      Completes id n (s.arrive id k) (.queued k work) (s.attend k d work).1
        (s.attend k d work).2 := by
  have hqs : ∀ d', s.slots[k]? = some d' → d'.queue = [] := by
    intro d' hd'
    rw [hd] at hd'
    cases hd'
    exact hq
  have hheld := held_arrive id hd hq
  have hrelease := release_arrive id hqs
  have hturn : (s.arrive id k).turn id (.queued k work)
      = (s.arrive id k).check k { d with queue := [id] } work := by
    simp only [turn, hheld]
  cases work with
  | close => exact ⟨1, by decide, .done (by rw [hturn, check, hrelease]; rfl)⟩
  | version =>
    refine ⟨1, by decide, .done ?_⟩
    rw [hturn, check, hrelease]
    by_cases hc : s.isCancelled (s.slotScope k) = true
    · simp only [attend, hc, if_true]
      exact if_pos hc
    · simp only [attend, hc]
      exact if_neg hc
  | snapshot =>
    refine ⟨1, by decide, .done ?_⟩
    rw [hturn, check, hrelease]
    by_cases hc : s.isCancelled (s.slotScope k) = true
    · simp only [attend, hc, if_true]
      exact if_pos hc
    · simp only [attend, hc]
      exact if_neg hc
  | change content version =>
    rw [check, hrelease] at hturn
    by_cases hc : s.isCancelled (s.slotScope k) = true
    · refine ⟨1, by decide, .done ?_⟩
      simp only [attend, hc, if_true]
      exact hturn.trans (if_pos hc)
    · by_cases hv : version ≤ d.version
      · refine ⟨1, by decide, .done ?_⟩
        simp only [attend, hc, hv, if_true]
        exact hturn.trans ((if_neg hc).trans (if_pos hv))
      · have hattend : s.attend k d (.change content version)
            = (s.cancel (s.editionScope k d.revision)).replace k d content version := by
          simp [attend, hc, hv]
        rw [hattend]
        have hsupersede : (s.arrive id k).turn id (.supersede k content version)
            = .next ((s.cancel (s.editionScope k d.revision)).arrive id k)
              (.replace k content version) := by
          simp only [turn, hheld]
          rfl
        have hreplace : ((s.cancel (s.editionScope k d.revision)).arrive id k).turn id
            (.replace k content version)
            = .done ((s.cancel (s.editionScope k d.revision)).replace k d content version).1
              ((s.cancel (s.editionScope k d.revision)).replace k d content version).2 := by
          rw [← replace_arrive (s := s.cancel (s.editionScope k d.revision)) id d [id] content
            version hqs]
          have hheld' : ((s.cancel (s.editionScope k d.revision)).arrive id k).held id k
              = some { d with queue := [id] } := hheld
          simp only [turn, hheld']
        refine ⟨3, by decide, .next (hturn.trans ((if_neg hc).trans (if_neg hv))) ?_⟩
        exact .next hsupersede (.done hreplace)
  | commit e report =>
    rw [check, hrelease] at hturn
    by_cases hc : (s.isCancelled e.scope || d.version ≠ e.version) = true
    · refine ⟨1, by decide, .done ?_⟩
      simp only [attend, hc, if_true]
      exact hturn.trans (if_pos hc)
    · have hattend : s.attend k d (.commit e report) = (s.record k report, .committed) := by
        simp only [attend, hc]
        rfl
      rw [hattend]
      refine ⟨3, by decide, .next (hturn.trans (if_neg hc)) (.next rfl (.done ?_))⟩
      rw [← record_arrive id report hqs]
      rfl

/-- A call that looks a document up. -/
theorem completes_visit {s : Store} (hs : Quiet s) (id : Nat) (uri : Uri) (work : Work) :
    ∃ n, n ≤ 5 ∧ Completes id n s (.find uri work) (s.visit uri work).1 (s.visit uri work).2 := by
  cases hlook : s.lookup uri with
  | none =>
    refine ⟨1, by decide, .done ?_⟩
    simp [turn, visit, document?, hlook]
  | some k =>
    have hk := hs.table _ (mem_table_of_lookup hlook)
    obtain ⟨d, hd⟩ : ∃ d, s.slots[k]? = some d := ⟨_, List.getElem?_eq_getElem hk⟩
    have hvisit : s.visit uri work = s.attend k d work := by
      simp [visit, document?, hlook, hd]
    obtain ⟨n, hn, hc⟩ := completes_queued id hd (hs.queues k d hd) work
    have hfind : s.turn id (.find uri work) = .next s (.arrive k work) := by
      simp only [turn, hlook]
    rw [hvisit]
    exact ⟨n + 1 + 1, by omega, .next hfind (.next rfl hc)⟩

/-- A shutdown, from the emptied table on. -/
theorem completes_collect {s : Store} (id : Nat)
    (hs : ∀ (k : Nat) (d : Slot), s.slots[k]? = some d → d.queue = [])
    (ks : List Nat) (hks : ∀ k ∈ ks, k < s.slots.length) (closed : List Closed) :
    Completes id (2 * ks.length + 1) s (.collect ks closed) s
      (.drained (closed ++ s.closeAll ks)) := by
  induction ks generalizing closed with
  | nil =>
    rw [closeAll, List.filterMap_nil, List.append_nil]
    exact .done rfl
  | cons k ks ih =>
    have hk := hks k (List.mem_cons_self ..)
    obtain ⟨d, hd⟩ : ∃ d, s.slots[k]? = some d := ⟨_, List.getElem?_eq_getElem hk⟩
    have hclose : closed ++ s.closeAll (k :: ks) = closed ++ [d.close] ++ s.closeAll ks := by
      simp [closeAll_cons hd]
    have htake : (s.arrive id k).turn id (.collecting k ks closed)
        = .next s (.collect ks (closed ++ [d.close])) := by
      simp only [turn, held_arrive id hd (hs k d hd), release_arrive id (hs k)]
      rfl
    rw [hclose]
    exact .next rfl (.next htake (ih (fun j hj => hks j (List.mem_cons_of_mem _ hj)) _))

theorem completes_perform {s : Store} (hs : Quiet s) (id : Nat) {r : Request} (hr : s.Accepts r) :
    ∃ n, n ≤ 2 * s.table.length + 6 ∧
      Completes id n s r.call (s.perform r).1 (s.perform r).2 := by
  cases r with
  | track uri content version => exact ⟨1, by omega, .done rfl⟩
  | isOpen uri => exact ⟨1, by omega, .done rfl⟩
  | size => exact ⟨1, by omega, .done rfl⟩
  | change uri content version =>
    obtain ⟨n, hn, hc⟩ := completes_visit hs id uri (.change content version)
    exact ⟨n, by omega, hc⟩
  | version uri =>
    obtain ⟨n, hn, hc⟩ := completes_visit hs id uri .version
    exact ⟨n, by omega, hc⟩
  | snapshot uri =>
    obtain ⟨n, hn, hc⟩ := completes_visit hs id uri .snapshot
    exact ⟨n, by omega, hc⟩
  | commit e report =>
    obtain ⟨d, hd⟩ : ∃ d, s.slots[e.slot]? = some d := ⟨_, List.getElem?_eq_getElem hr⟩
    obtain ⟨n, hn, hc⟩ := completes_queued id hd (hs.queues _ d hd) (.commit e report)
    have hperform : s.perform (.commit e report) = s.attend e.slot d (.commit e report) := by
      simp [perform, hd]
    rw [hperform]
    exact ⟨n + 1, by omega, .next rfl hc⟩
  | close uri =>
    cases hlook : s.lookup uri with
    | none =>
      refine ⟨1, by omega, .done ?_⟩
      simp [turn, Request.call, perform, document?, hlook]
    | some k =>
      have hk := hs.table _ (mem_table_of_lookup hlook)
      obtain ⟨d, hd⟩ : ∃ d, s.slots[k]? = some d := ⟨_, List.getElem?_eq_getElem hk⟩
      obtain ⟨s', hs'⟩ : ∃ s', s' = cancel
        { s with table := s.table.filter fun entry => entry.1 ≠ uri } (s.slotScope k) := ⟨_, rfl⟩
      have hd' : s'.slots[k]? = some d := by rw [hs']; exact hd
      have hperform : s.perform (.close uri) = s'.attend k d .close := by
        simp [perform, document?, hlook, hd, hs', attend]
      obtain ⟨n, hn, hc⟩ := completes_queued id hd' (hs.queues k d hd) .close
      have hremove : s.turn id (.remove uri) = .next
          { s with table := s.table.filter fun entry => entry.1 ≠ uri } (.cancelSlot k) := by
        simp only [turn, hlook]
      have hcancel : turn { s with table := s.table.filter fun entry => entry.1 ≠ uri } id
          (.cancelSlot k) = .next s' (.arrive k .close) := by
        rw [hs']
        rfl
      rw [hperform]
      exact ⟨n + 1 + 1 + 1, by omega, .next hremove (.next hcancel (.next rfl hc))⟩
  | shutdown =>
    have hcollect := completes_collect (s := { s.cancel s.lifetime with table := [] }) id hs.queues
      (s.table.map Prod.snd) (fun k hk => by
        obtain ⟨entry, hentry, rfl⟩ := List.mem_map.1 hk
        exact hs.table entry hentry) []
    refine ⟨_, ?_, .next rfl (.next rfl hcollect)⟩
    simp only [List.length_map]
    omega

end Store

/-! ## Requests one after the other -/

namespace Store

/-- A quiet store stays quiet when queues stay empty, slots stay and the table does not grow. -/
theorem Quiet.of_slots {s s' : Store} (h : Quiet s) (hlen : s'.slots.length = s.slots.length)
    (hq : ∀ (k : Nat) (d : Slot), s'.slots[k]? = some d → d.queue = [])
    (ht : s'.table.Sublist s.table) : Quiet s' where
  queues := hq
  table := fun entry he => by
    rw [hlen]
    exact h.table entry (ht.subset he)
  size := by
    rw [hlen]
    exact Nat.le_trans ht.length_le h.size

theorem Quiet.modifySlot_release {s : Store} (h : Quiet s) (k : Nat) (f : Slot → Slot)
    (hf : ∀ d, (f d).queue = d.queue) : Quiet ((s.modifySlot k f).release k) := by
  refine h.of_slots (by simp [release]) (fun j d hd => ?_) (List.Sublist.refl _)
  simp only [release, getElem?_modifySlot, Option.map_map] at hd
  obtain ⟨d0, hd0, rfl⟩ := Option.map_eq_some_iff.1 hd
  have hq := h.queues j d0 hd0
  by_cases hkj : k = j <;> simp [hkj, hf, hq]

theorem Quiet.attend {s : Store} (h : Quiet s) (k : Nat) (d : Slot) (work : Work) :
    Quiet (s.attend k d work).1 := by
  cases work with
  | close => exact h
  | change content version =>
    simp only [Store.attend]
    split
    · exact h
    · split
      · exact h
      · have hcancel : Quiet (s.cancel (s.editionScope k d.revision)) :=
          h.of_slots rfl h.queues (List.Sublist.refl _)
        exact hcancel.modifySlot_release k _ fun _ => rfl
  | version =>
    simp only [Store.attend]
    split <;> exact h
  | snapshot =>
    simp only [Store.attend]
    split <;> exact h
  | commit e report =>
    simp only [Store.attend]
    split
    · exact h
    · exact h.modifySlot_release k _ fun _ => rfl

theorem Quiet.visit {s : Store} (h : Quiet s) (uri : Uri) (work : Work) :
    Quiet (s.visit uri work).1 := by
  unfold Store.visit
  split
  · exact h
  · exact h.attend _ _ _

theorem Quiet.perform {s : Store} (h : Quiet s) (r : Request) : Quiet (s.perform r).1 := by
  cases r with
  | track uri content version =>
    simp only [Store.perform, Store.track]
    split
    · exact h
    · split
      · exact h
      · refine ⟨fun k d hd => ?_, fun entry he => ?_, ?_⟩
        · rw [List.getElem?_append] at hd
          split at hd
          · exact h.queues k d hd
          · simp only [List.getElem?_singleton] at hd
            split at hd
            · cases hd
              rfl
            · cases hd
        · simp only [List.length_append, List.length_singleton]
          rcases List.mem_append.1 he with he | he
          · exact Nat.lt_succ_of_lt (h.table entry he)
          · rw [List.mem_singleton.1 he]
            exact Nat.lt_succ_self _
        · have := h.size
          simp only [List.length_append, List.length_singleton]
          omega
  | change uri content version => exact h.visit uri _
  | version uri => exact h.visit uri _
  | snapshot uri => exact h.visit uri _
  | isOpen uri => exact h
  | size => exact h
  | close uri =>
    simp only [Store.perform]
    split
    · exact h
    · exact h.of_slots rfl h.queues List.filter_sublist
  | commit e report =>
    simp only [Store.perform]
    split
    · exact h
    · exact h.attend _ _ _
  | shutdown => exact h.of_slots rfl h.queues (List.nil_sublist _)

end Store

/-- Requests one after the other, with what they return. -/
inductive Replays : Store → List (Request × Reply) → Store → Prop
  | nil {s : Store} : Replays s [] s
  | cons {s s' s'' : Store} {r : Request} {reply : Reply} {xs : List (Request × Reply)}
      (ha : s.Accepts r) (hp : s.perform r = (s', reply)) (h : Replays s' xs s'') :
      Replays s ((r, reply) :: xs) s''

theorem Replays.concat {s s' s'' : Store} {r : Request} {reply : Reply}
    {xs : List (Request × Reply)} (h : Replays s xs s') (ha : s'.Accepts r)
    (hp : s'.perform r = (s'', reply)) : Replays s (xs ++ [(r, reply)]) s'' := by
  induction h with
  | nil => exact .cons ha hp .nil
  | cons ha' hp' _ ih => exact .cons ha' hp' (ih ha hp)

theorem Replays.quiet {s s' : Store} {xs : List (Request × Reply)} (h : Replays s xs s')
    (hs : s.Quiet) : s'.Quiet := by
  induction h with
  | nil => exact hs
  | @cons _ _ _ r _ _ _ hp _ ih =>
    have hnext := hs.perform r
    rw [hp] at hnext
    exact ih hnext

/-- In a quiet store a slot is its data. -/
theorem Store.Quiet.slot {s : Store} (h : s.Quiet) (k : Nat) : s.slots[k]? = s.dataOf k := by
  unfold dataOf
  cases hk : s.slots[k]? with
  | none => rfl
  | some d =>
    have hq := h.queues k d hk
    cases d
    simp_all [Slot.data]

/-- The slots after a report is recorded in one. -/
theorem Store.Quiet.slot_record {s : Store} (h : s.Quiet) (k : Nat) (report : Report) (j : Nat) :
    (s.record k report).slots[j]?
      = if j = k then (s.slots[j]?).map fun d => d.recorded report else s.slots[j]? := by
  have hrecord : (s.record k report).Quiet := h.modifySlot_release k _ fun _ => rfl
  rw [hrecord.slot, h.slot, Store.dataOf_record]

namespace Workspace

/-! ## A workspace with one task -/

/-- A call that does not have to wait goes on when no publication is held up. -/
theorem next?_of_call {w : Workspace} {id : Nat} {c : Call} (purpose : Purpose)
    (h : w.store.turn id c ≠ .blocked) : w.next? {} id (.call purpose c) = some (.advance id) := by
  simp only [next?]
  split
  · exact absurd ‹_› h
  · rfl
  · rfl

/-- Only one call is under way. -/
structure Alone (w : Workspace) (id : Nat) (purpose : Purpose) (s : Store) (c : Call) : Prop where
  store : w.store = s
  tasks : w.tasks = [(id, .call purpose c)]

section Alone

variable {w : Workspace} {id : Nat} {purpose : Purpose} {s s' : Store} {c c' : Call} {reply : Reply}

theorem Alone.task? (h : Alone w id purpose s c) : w.task? id = some (.call purpose c) := by
  simp [Workspace.task?, h.tasks]

theorem Alone.nextOf? (h : Alone w id purpose s c) (hne : s.turn id c ≠ .blocked) :
    w.nextOf? {} id = some (.advance id) := by
  rw [Workspace.nextOf?, h.task?]
  exact next?_of_call purpose (by rw [h.store]; exact hne)

theorem Alone.next (h : Alone w id purpose s c) (ht : s.turn id c = .next s' c') :
    Alone (w.step (.advance id)) id purpose s' c' ∧
      (w.step (.advance id)).started = w.started ∧ (w.step (.advance id)).outbox = w.outbox := by
  have hstep : w.step (.advance id)
      = ((w.note id c).withStore s').update id (.call purpose c') := by
    simp only [step, advance, h.task?, advanceCall, h.store, ht]
  rw [hstep, note_eq]
  refine ⟨⟨rfl, ?_⟩, rfl, rfl⟩
  simp [update, withStore, h.tasks]

/-- The last turn of the call, before anything follows from its reply. -/
theorem Alone.done (h : Alone w id purpose s c) (ht : s.turn id c = .done s' reply) :
    ∃ v : Workspace, w.step (.advance id) = v.follow id purpose reply ∧ Alone v id purpose s' c ∧
      v.started = w.started ∧ v.outbox = w.outbox ∧ v.reply? id = some reply := by
  refine ⟨((w.note id c).withStore s').emit (.returned id reply), ?_, ?_⟩
  · simp only [step, advance, h.task?, advanceCall, h.store, ht]
  · rw [note_eq]
    refine ⟨⟨rfl, by simp [emit, withStore, h.tasks]⟩, rfl, rfl, ?_⟩
    simp [reply?, emit]

/-- Nothing follows from the reply to a caller. -/
theorem Alone.answered (h : Alone w id .answer s c) (ht : s.turn id c = .done s' reply) :
    (w.step (.advance id)).store = s' ∧ (w.step (.advance id)).tasks = [] ∧
      (w.step (.advance id)).started = w.started ∧
      (w.step (.advance id)).reply? id = some reply := by
  obtain ⟨v, hstep, hv, hstarted, _, hreply⟩ := h.done ht
  have hfollow : v.follow id .answer reply = v.finish id := by
    unfold follow
    rfl
  rw [hstep, hfollow]
  refine ⟨hv.store, ?_, hstarted, hreply⟩
  simp [finish, hv.tasks]

end Alone

theorem resumeWithin_of_none {w : Workspace} {env : Surroundings} {id : Nat} (fuel : Nat)
    (h : w.nextOf? env id = none) : resumeWithin env id fuel w = w := by
  cases fuel with
  | zero => rfl
  | succ n => rw [resumeWithin, h]

theorem nextOf?_of_idle {w : Workspace} (env : Surroundings) (id : Nat) (h : w.tasks = []) :
    w.nextOf? env id = none := by
  simp [nextOf?, Workspace.task?, h]

/-- A call that is alone comes to its end in one go. -/
theorem resumeWithin_completes {id n : Nat} {s s' : Store} {c : Call} {reply : Reply}
    (hc : Completes id n s c s' reply) {w : Workspace} (hw : Alone w id .answer s c) {fuel : Nat}
    (hn : n ≤ fuel) :
    (resumeWithin {} id fuel w).store = s' ∧ (resumeWithin {} id fuel w).tasks = [] ∧
      (resumeWithin {} id fuel w).started = w.started ∧
      (resumeWithin {} id fuel w).reply? id = some reply := by
  induction hc generalizing w fuel with
  | @done s s' c reply ht =>
    obtain ⟨m, rfl⟩ : ∃ m, fuel = m + 1 := ⟨fuel - 1, by omega⟩
    obtain ⟨hstore, htasks, hstarted, hreply⟩ := hw.answered ht
    rw [resumeWithin, hw.nextOf? (by rw [ht]; nofun)]
    simp only [resumeWithin_of_none m (nextOf?_of_idle {} id htasks)]
    exact ⟨hstore, htasks, hstarted, hreply⟩
  | @next n s s' s'' c c' reply ht _ ih =>
    obtain ⟨m, rfl⟩ : ∃ m, fuel = m + 1 := ⟨fuel - 1, by omega⟩
    obtain ⟨halone, hstarted, _⟩ := hw.next ht
    rw [resumeWithin, hw.nextOf? (by rw [ht]; nofun), ← hstarted]
    exact ih halone (by omega)

theorem settleWithin_of_idle {w : Workspace} (env : Surroundings) (fuel : Nat) (h : w.tasks = []) :
    settleWithin env fuel w = w := by
  cases fuel with
  | zero => rfl
  | succ n => simp [settleWithin, movable?, h]

/-- On a workspace with nothing under way a call is alone, and comes to its end in one go. -/
theorem call_eq_resume {w : Workspace} (hidle : w.tasks = []) (hs : w.store.Quiet) {r : Request}
    (hr : w.store.Accepts r) : ∃ (v : Workspace) (n fuel : Nat), v = w.invoke .answer r ∧
      Alone v w.started .answer w.store r.call ∧ n ≤ fuel ∧
      Completes w.started n w.store r.call (w.store.perform r).1 (w.store.perform r).2 ∧
      w.call {} r = (resumeWithin {} w.started fuel v, w.started) := by
  obtain ⟨n, hn, hc⟩ := Store.completes_perform hs w.started hr
  obtain ⟨v, hv⟩ : ∃ v, v = w.invoke .answer r := ⟨_, rfl⟩
  have halone : Alone v w.started .answer w.store r.call := by
    rw [hv]
    exact ⟨rfl, by simp [invoke, emit, start, hidle]⟩
  have hfuel : n ≤ v.stepsAtOnce := by
    have hsize := hs.size
    rw [stepsAtOnce, halone.store]
    omega
  obtain ⟨-, htasks, -, -⟩ := resumeWithin_completes hc halone hfuel
  have hmove : v.movable? {} = some w.started := by
    have hne : w.store.turn w.started r.call ≠ .blocked := by
      cases hc with
      | done ht => rw [ht]; nofun
      | next ht => rw [ht]; nofun
    simp [movable?, halone.tasks, halone.nextOf? hne]
  have hsettle : v.settle {} = resumeWithin {} w.started v.stepsAtOnce v := by
    unfold settle
    obtain ⟨m, hm⟩ : ∃ m, v.resumptionsLeft = m + 1 :=
      ⟨v.resumptionsLeft - 1, by unfold resumptionsLeft; omega⟩
    rw [hm, settleWithin, hmove]
    exact settleWithin_of_idle {} m htasks
  have hcall : w.call {} r = (v.settle {}, w.started) := by rw [hv]; rfl
  exact ⟨v, n, v.stepsAtOnce, hv, halone, hfuel, hc, by rw [hcall, hsettle]⟩

/-- A call on a workspace with nothing under way does and returns what the request does by
itself. -/
theorem call_spec {w : Workspace} (hidle : w.tasks = []) (hs : w.store.Quiet) {r : Request}
    (hr : w.store.Accepts r) :
    (w.call {} r).2 = w.started ∧ (w.call {} r).1.store = (w.store.perform r).1 ∧
      (w.call {} r).1.tasks = [] ∧
      (w.call {} r).1.reply? w.started = some (w.store.perform r).2 := by
  obtain ⟨v, n, fuel, -, halone, hfuel, hc, hcall⟩ := call_eq_resume hidle hs hr
  obtain ⟨hstore, htasks, -, hreply⟩ := resumeWithin_completes hc halone hfuel
  rw [hcall]
  exact ⟨rfl, hstore, htasks, hreply⟩

/-- What requests return that are made one after the other. -/
def replies (w : Workspace) : List Request → List (Option Reply)
  | [] => []
  | r :: rs =>
    let (w', id) := w.call {} r
    w'.reply? id :: w'.replies rs

theorem replies_of_replays {s s' : Store} {xs : List (Request × Reply)} (h : Replays s xs s')
    (hs : s.Quiet) {w : Workspace} (hw : w.store = s) (hidle : w.tasks = []) :
    w.replies (xs.map Prod.fst) = xs.map fun x => some x.2 := by
  induction h generalizing w with
  | nil => rfl
  | @cons s s' s'' r reply xs ha hp _ ih =>
    subst hw
    obtain ⟨hid, hstore, htasks, hreply⟩ := call_spec hidle hs ha
    have hs' := hs.perform r
    rw [hp] at hstore hreply hs'
    simp only [List.map_cons, replies]
    rw [hid, hreply, ih hs' hstore htasks]

end Workspace

end PromqlServer.Document
