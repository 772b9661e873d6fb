import PromqlServer.Proofs.Document.Runs

/-!
The calls of the document cache that are under way. Each of them is at a stage of the request that
it was made for (`Serves`). The queue of a slot holds exactly the calls that stand at its lock, each
once, and a call that is past the check under a lock is at the head of the queue, so that no two
calls, two `commit`s or a `commit` and a `change`, are past the check of one slot at the same time
(`Locked.unique`).
-/

namespace PromqlServer.Document

/-! ## Replies and editions in the history -/

/-- A reply that stands in the history after a turn. -/
theorem returned_turned {w w' : Workspace} {id : Nat} {c : Call} {t : Turn} {es : List Event}
    (hes : ∀ e ∈ es, e.isAside = true)
    (hh : w'.history = es ++ (t.replies id ++ (c.notes id ++ w.history))) {j : Nat} {r : Reply} :
    Event.returned j r ∈ w'.history ↔
      Event.returned j r ∈ w.history ∨ (j = id ∧ ∃ s, t = .done s r) := by
  have haside : Event.returned j r ∉ es := fun h => by cases hes _ h
  have hnotes := returned_notin_notes id j c r
  rw [hh]
  cases t <;> simp [Turn.replies, haside, hnotes, or_comm, eq_comm]

theorem invoked_turned {w w' : Workspace} {id : Nat} {c : Call} {t : Turn} {es : List Event}
    (hes : ∀ e ∈ es, e.isAside = true)
    (hh : w'.history = es ++ (t.replies id ++ (c.notes id ++ w.history))) {j : Nat} {r : Request} :
    Event.invoked j r ∈ w'.history ↔ Event.invoked j r ∈ w.history := by
  have haside : Event.invoked j r ∉ es := fun h => by cases hes _ h
  have hnotes := invoked_notin_notes id j c r
  rw [hh]
  cases t <;> simp [Turn.replies, haside, hnotes]

theorem returned_aside {w w' : Workspace} {es : List Event} (hes : ∀ e ∈ es, e.isAside = true)
    (hh : w'.history = es ++ w.history) {j : Nat} {r : Reply} :
    Event.returned j r ∈ w'.history ↔ Event.returned j r ∈ w.history := by
  have haside : Event.returned j r ∉ es := fun h => by cases hes _ h
  simp [hh, haside]

namespace Workspace

/-- Which editions are handed out after a turn. -/
theorem handedOut_turned {w w' : Workspace} {id : Nat} {c : Call} {t : Turn} {es : List Event}
    (hes : ∀ e ∈ es, e.isAside = true)
    (hh : w'.history = es ++ (t.replies id ++ (c.notes id ++ w.history))) {e : Edition} :
    w'.HandedOut e ↔ w.HandedOut e ∨ ∃ s, t = .done s (.opened e) := by
  unfold HandedOut
  simp only [returned_turned hes hh]
  constructor
  · rintro ⟨j, hj | ⟨rfl, hs⟩⟩
    · exact Or.inl ⟨j, hj⟩
    · exact Or.inr hs
  · rintro (⟨j, hj⟩ | hs)
    · exact ⟨j, Or.inl hj⟩
    · exact ⟨id, Or.inr ⟨rfl, hs⟩⟩

theorem handedOut_aside {w w' : Workspace} {es : List Event} (hes : ∀ e ∈ es, e.isAside = true)
    (hh : w'.history = es ++ w.history) {e : Edition} : w'.HandedOut e ↔ w.HandedOut e := by
  unfold HandedOut
  simp only [returned_aside hes hh]

theorem handedOut_cons {w w' : Workspace} {x : Event} (hx : ∀ j r, x ≠ .returned j r)
    (hh : w'.history = x :: w.history) {e : Edition} : w'.HandedOut e ↔ w.HandedOut e := by
  unfold HandedOut
  simp only [hh, List.mem_cons]
  constructor
  · rintro ⟨j, hj | hj⟩
    · exact absurd hj.symm (hx j _)
    · exact ⟨j, hj⟩
  · rintro ⟨j, hj⟩
    exact ⟨j, Or.inr hj⟩

end Workspace

/-! ## Stages of a request -/

/-- What a request comes to do under a lock, and whose lock it is. -/
def Request.work? : Request → Option (Uri × Work)
  | .change uri content v => some (uri, .change content v)
  | .close uri => some (uri, .close)
  | .version uri => some (uri, .version)
  | .snapshot uri => some (uri, .snapshot)
  | _ => none

/-- The calls that a request goes through. -/
inductive Serves (s : Store) : Request → Call → Prop
  | start {r : Request} {c : Call} (hc : r.call = c) : Serves s r c
  | cancelSlot {uri : Uri} {k : Nat} {d : Slot} (hd : s.dataOf k = some d) (hu : d.uri = uri) :
      Serves s (.close uri) (.cancelSlot k)
  | arrive {r : Request} {uri : Uri} {work : Work} {k : Nat} {d : Slot}
      (hr : r.work? = some (uri, work)) (hd : s.dataOf k = some d) (hu : d.uri = uri) :
      Serves s r (.arrive k work)
  | queued {r : Request} {uri : Uri} {work : Work} {k : Nat} {d : Slot}
      (hr : r.work? = some (uri, work)) (hd : s.dataOf k = some d) (hu : d.uri = uri) :
      Serves s r (.queued k work)
  | supersede {uri : Uri} {content : String} {version : Int} {k : Nat} {d : Slot}
      (hd : s.dataOf k = some d) (hu : d.uri = uri) :
      Serves s (.change uri content version) (.supersede k content version)
  | replace {uri : Uri} {content : String} {version : Int} {k : Nat} {d : Slot}
      (hd : s.dataOf k = some d) (hu : d.uri = uri) :
      Serves s (.change uri content version) (.replace k content version)
  | committing {e : Edition} {report : Report} :
      Serves s (.commit e report) (.queued e.slot (.commit e report))
  | publish {e : Edition} {report : Report} :
      Serves s (.commit e report) (.publish e.slot report)
  | publishing {e : Edition} {report : Report} :
      Serves s (.commit e report) (.publishing e.slot report)
  | drain : Serves s .shutdown .drain
  | collect {ks : List Nat} {closed : List Closed} (hks : ∀ k ∈ ks, k < s.slots.length) :
      Serves s .shutdown (.collect ks closed)
  | collecting {k : Nat} {ks : List Nat} {closed : List Closed}
      (hks : ∀ j ∈ k :: ks, j < s.slots.length) : Serves s .shutdown (.collecting k ks closed)

/-- Documents are never forgotten, so that a stage stays one. -/
theorem Serves.mono {s s' : Store} {r : Request} {c : Call} (h : Serves s r c)
    (hlen : s.slots.length ≤ s'.slots.length)
    (hdata : ∀ k d, s.dataOf k = some d → ∃ d', s'.dataOf k = some d' ∧ d'.uri = d.uri) :
    Serves s' r c := by
  cases h with
  | start hc => exact .start hc
  | cancelSlot hd hu =>
    obtain ⟨d', hd', hu'⟩ := hdata _ _ hd
    exact .cancelSlot hd' (hu'.trans hu)
  | arrive hr hd hu =>
    obtain ⟨d', hd', hu'⟩ := hdata _ _ hd
    exact .arrive hr hd' (hu'.trans hu)
  | queued hr hd hu =>
    obtain ⟨d', hd', hu'⟩ := hdata _ _ hd
    exact .queued hr hd' (hu'.trans hu)
  | supersede hd hu =>
    obtain ⟨d', hd', hu'⟩ := hdata _ _ hd
    exact .supersede hd' (hu'.trans hu)
  | replace hd hu =>
    obtain ⟨d', hd', hu'⟩ := hdata _ _ hd
    exact .replace hd' (hu'.trans hu)
  | committing => exact .committing
  | publish => exact .publish
  | publishing => exact .publishing
  | drain => exact .drain
  | collect hks => exact .collect fun k hk => Nat.lt_of_lt_of_le (hks k hk) hlen
  | collecting hks => exact .collecting fun k hk => Nat.lt_of_lt_of_le (hks k hk) hlen

/-- The next call of a request. -/
theorem Serves.next {s s' : Store} {id : Nat} {r : Request} {c c' : Call} (h : Serves s r c)
    (ht : Turned s id c (.next s' c'))
    (htable : ∀ uri k, (uri, k) ∈ s.table → ∃ d, s.dataOf k = some d ∧ d.uri = uri) :
    Serves s r c' := by
  cases ht with
  | found hk =>
    obtain ⟨d, hd, hu⟩ := htable _ _ (Store.mem_table_of_lookup hk)
    cases h with
    | start hc =>
      cases r <;> cases hc
      all_goals exact .arrive rfl hd hu
  | removed hk =>
    obtain ⟨d, hd, hu⟩ := htable _ _ (Store.mem_table_of_lookup hk)
    cases h with
    | start hc =>
      cases r <;> cases hc
      exact .cancelSlot hd hu
  | slotCancelled =>
    cases h with
    | start hc => cases r <;> cases hc
    | cancelSlot hd hu => exact .arrive rfl hd hu
  | arrived =>
    cases h with
    | start hc =>
      cases r <;> cases hc
      exact .committing
    | arrive hr hd hu => exact .queued hr hd hu
  | admitted =>
    cases h with
    | start hc => cases r <;> cases hc
    | queued hr hd hu =>
      cases r <;> cases hr
      exact .supersede hd hu
  | passed =>
    cases h with
    | start hc => cases r <;> cases hc
    | queued hr => cases r <;> cases hr
    | committing => exact .publish
  | superseded =>
    cases h with
    | start hc => cases r <;> cases hc
    | supersede hd hu => exact .replace hd hu
  | began =>
    cases h with
    | start hc => cases r <;> cases hc
    | publish => exact .publishing
  | lifetimeEnded =>
    cases h with
    | start hc =>
      cases r <;> cases hc
      exact .drain
  | drained =>
    cases h with
    | start hc => cases r <;> cases hc
    | drain =>
      refine .collect fun k hk => ?_
      obtain ⟨⟨uri, j⟩, hmem, rfl⟩ := List.mem_map.1 hk
      obtain ⟨d, hd, _⟩ := htable uri j hmem
      exact Store.lt_of_dataOf hd
  | joined =>
    cases h with
    | start hc => cases r <;> cases hc
    | collect hks => exact .collecting hks
  | taken =>
    cases h with
    | start hc => cases r <;> cases hc
    | collecting hks => exact .collect fun j hj => hks j (List.mem_cons_of_mem _ hj)

/-- The slots that a call has to do with are there, if its edition is one. -/
theorem Serves.mentions {s : Store} {r : Request} {c : Call} (h : Serves s r c)
    (hed : ∀ e report, r = .commit e report → e.slot < s.slots.length) :
    ∀ k ∈ c.mentions, k < s.slots.length := by
  intro k hk
  cases h with
  | start hc =>
    cases r <;> cases hc <;> simp [Request.call, Call.mentions] at hk
    rw [hk]
    exact hed _ _ rfl
  | cancelSlot hd | arrive _ hd | queued _ hd | supersede hd | replace hd =>
    simp only [Call.mentions, List.mem_singleton] at hk
    rw [hk]
    exact Store.lt_of_dataOf hd
  | committing | publish | publishing =>
    simp only [Call.mentions, List.mem_singleton] at hk
    rw [hk]
    exact hed _ _ rfl
  | drain => cases hk
  | collect hks => exact hks k hk
  | collecting hks => exact hks k hk

namespace Workspace

/-- Each call is at a stage of its request, and tracked documents and editions are those of their
slots. -/
structure Staged (w : Workspace) : Prop where
  table : ∀ uri k, (uri, k) ∈ w.store.table → ∃ d, w.store.dataOf k = some d ∧ d.uri = uri
  editions : ∀ e, w.HandedOut e → ∃ d, w.store.dataOf e.slot = some d ∧ d.uri = e.uri
  calls : ∀ id c, w.callAt id = some c →
    ∃ r, Event.invoked id r ∈ w.history ∧ Serves w.store r c
  commits : ∀ id e report, Event.invoked id (.commit e report) ∈ w.history → w.HandedOut e

theorem staged_fresh (lifetime : Scope) : Staged (fresh lifetime) where
  table := by simp [fresh]
  editions := by simp [fresh, HandedOut]
  calls := by simp [fresh, callAt, task?]
  commits := by simp [fresh]

/-- The history only grows. -/
theorem Moved.history {w w' : Workspace} (h : Moved w w') :
    ∃ es, w'.history = es ++ w.history := by
  cases h with
  | aside _ _ es _ hh => exact ⟨es, hh⟩
  | invoked id r _ _ _ _ _ _ hh => exact ⟨[.invoked id r], hh⟩
  | cancelled scope _ _ _ hh => exact ⟨[.cancelled scope], hh⟩
  | turned id c t _ _ _ _ es _ hh =>
    exact ⟨es ++ (t.replies id ++ c.notes id), by rw [hh]; simp⟩

theorem Moved.mem_history {w w' : Workspace} (h : Moved w w') {e : Event} (he : e ∈ w.history) :
    e ∈ w'.history := by
  obtain ⟨es, hh⟩ := h.history
  rw [hh]
  exact List.mem_append_right _ he

theorem Moved.lifetime {w w' : Workspace} (h : Moved w w') :
    w'.store.lifetime = w.store.lifetime := by
  cases h with
  | aside hs => rw [hs]
  | invoked _ _ _ _ _ _ hs => rw [hs]
  | cancelled _ _ hs => rw [hs]; rfl
  | turned _ _ _ _ ht hs => exact ht.lifetime_eq hs

theorem Staged.table_turned {w w' : Workspace} (h : Staged w) {id : Nat} {c : Call} {t : Turn}
    (ht : Turned w.store id c t) (hs : t.store? = some w'.store) :
    ∀ uri k, (uri, k) ∈ w'.store.table → ∃ d, w'.store.dataOf k = some d ∧ d.uri = uri := by
  have hold : ∀ uri k, (uri, k) ∈ w.store.table →
      ∃ d, w'.store.dataOf k = some d ∧ d.uri = uri := by
    intro uri k hmem
    obtain ⟨d, hd, hu⟩ := h.table uri k hmem
    obtain ⟨d', hd', hu'⟩ := (ht.dataStep hs).dataOf_uri hd
    exact ⟨d', hd', hu'.trans hu⟩
  intro uri k hmem
  cases ht.tableStep hs with
  | same htab => exact hold uri k (htab ▸ hmem)
  | tracked u content version _ hs' _ =>
    rw [hs'] at hmem
    rcases List.mem_append.1 hmem with hmem | hmem
    · exact hold uri k hmem
    · cases List.mem_singleton.1 hmem
      rw [hs', Store.dataOf_withSlot, if_pos rfl]
      exact ⟨_, rfl, rfl⟩
  | removed u j _ _ hs' =>
    rw [hs'] at hmem
    exact hold uri k (List.mem_filter.1 hmem).1
  | drained _ hs' =>
    rw [hs'] at hmem
    cases hmem

theorem Staged.editions_turned {w w' : Workspace} (h : Staged w) {id : Nat} {c : Call} {t : Turn}
    (ht : Turned w.store id c t) (hs : t.store? = some w'.store) {e : Edition}
    (he : w.HandedOut e ∨ ∃ s, t = .done s (.opened e)) :
    ∃ d, w'.store.dataOf e.slot = some d ∧ d.uri = e.uri := by
  rcases he with he | ⟨s, hdone⟩
  · obtain ⟨d, hd, hu⟩ := h.editions e he
    obtain ⟨d', hd', hu'⟩ := (ht.dataStep hs).dataOf_uri hd
    exact ⟨d', hd', hu'.trans hu⟩
  · cases ht.dataStep hs with
    | same _ hr => exact absurd hdone (hr s e)
    | recorded _ _ _ _ hr => exact absurd hdone (hr s e)
    | tracked u content version _ _ _ hs' ht' =>
      rw [ht'] at hdone
      cases hdone
      rw [hs', Store.dataOf_withSlot, if_pos rfl]
      exact ⟨_, rfl, rfl⟩
    | replaced k d content version _ hd hs' ht' =>
      rw [ht'] at hdone
      cases hdone
      rw [hs', Store.dataOf_replace hd, if_pos rfl]
      exact ⟨_, rfl, rfl⟩

theorem Staged.step {w w' : Workspace} (h : Staged w) (hm : Moved w w') : Staged w' := by
  have hmono : ∀ {e}, w.HandedOut e → w'.HandedOut e :=
    fun he => he.mono fun _ hx => hm.mem_history hx
  cases hm with
  | aside hs hc es hes hh =>
    refine ⟨?_, ?_, ?_, ?_⟩
    · rw [hs]; exact h.table
    · intro e he
      rw [hs]
      exact h.editions e ((handedOut_aside hes hh).1 he)
    · intro id c hid
      rw [hc] at hid
      obtain ⟨r, hr, hserve⟩ := h.calls id c hid
      exact ⟨r, by rw [hh]; exact List.mem_append_right _ hr, by rw [hs]; exact hserve⟩
    · intro id e report hmem
      have haside : Event.invoked id (.commit e report) ∉ es := fun hx => by cases hes _ hx
      rw [hh, List.mem_append] at hmem
      exact hmono (h.commits id e report (hmem.resolve_left haside))
  | invoked id request _ _ hed _ hs hc hh =>
    refine ⟨?_, ?_, ?_, ?_⟩
    · rw [hs]; exact h.table
    · intro e he
      rw [hs]
      exact h.editions e ((handedOut_cons (by rintro _ _ ⟨⟩) hh).1 he)
    · intro j c hj
      rw [hc] at hj
      split at hj
      · rename_i hji
        cases hj
        exact ⟨request, by rw [hh, hji]; exact List.mem_cons_self .., .start rfl⟩
      · obtain ⟨r, hr, hserve⟩ := h.calls j c hj
        exact ⟨r, by rw [hh]; exact List.mem_cons_of_mem _ hr, by rw [hs]; exact hserve⟩
    · intro j e report hmem
      rw [hh, List.mem_cons] at hmem
      rcases hmem with heq | hmem
      · cases heq
        exact hmono (hed e report rfl)
      · exact hmono (h.commits j e report hmem)
  | cancelled scope _ hs hc hh =>
    refine ⟨?_, ?_, ?_, ?_⟩
    · rw [hs]; exact h.table
    · intro e he
      rw [hs]
      exact h.editions e ((handedOut_cons (by rintro _ _ ⟨⟩) hh).1 he)
    · intro id c hid
      rw [hc] at hid
      obtain ⟨r, hr, hserve⟩ := h.calls id c hid
      refine ⟨r, by rw [hh]; exact List.mem_cons_of_mem _ hr, ?_⟩
      rw [hs]
      exact hserve.mono (Nat.le_refl _) fun k d hd => ⟨d, hd, rfl⟩
    · intro id e report hmem
      rw [hh, List.mem_cons] at hmem
      exact hmono (h.commits id e report (hmem.resolve_left nofun))
  | turned id c t hcall ht hs hc es hes hh =>
    have hdata := ht.dataStep hs
    have hserves : ∀ {r c}, Serves w.store r c → Serves w'.store r c := fun hserve =>
      hserve.mono hdata.length_le fun k d hd => hdata.dataOf_uri hd
    refine ⟨h.table_turned ht hs, ?_, ?_, ?_⟩
    · intro e he
      exact h.editions_turned ht hs ((handedOut_turned hes hh).1 he)
    · intro j c' hj
      rw [hc] at hj
      split at hj
      · rename_i hji
        obtain ⟨r, hr, hserve⟩ := h.calls id c hcall
        cases t with
        | blocked => cases hj
        | done s reply => cases hj
        | next s c'' =>
          cases hj
          exact ⟨r, by rw [hji]; exact (invoked_turned hes hh).2 hr,
            hserves (hserve.next ht h.table)⟩
      · obtain ⟨r, hr, hserve⟩ := h.calls j c' hj
        exact ⟨r, (invoked_turned hes hh).2 hr, hserves hserve⟩
    · intro j e report hmem
      exact hmono (h.commits j e report ((invoked_turned hes hh).1 hmem))

/-- The slots that a call has to do with are there. -/
theorem Staged.mentions {w : Workspace} (h : Staged w) {id : Nat} {c : Call}
    (hc : w.callAt id = some c) : ∀ k ∈ c.mentions, k < w.store.slots.length := by
  obtain ⟨r, hr, hserve⟩ := h.calls id c hc
  refine hserve.mentions fun e report he => ?_
  subst he
  obtain ⟨d, hd, _⟩ := h.editions e (h.commits id e report hr)
  exact Store.lt_of_dataOf hd

/-! ## Locks -/

/-- The queue of a slot holds the calls at its lock, each once, and a call past the check under the
lock is the first of them. -/
structure Locked (w : Workspace) : Prop where
  nodup : ∀ k, (w.store.queueOf k).Nodup
  mem : ∀ k id, id ∈ w.store.queueOf k ↔ ∃ c, w.callAt id = some c ∧ c.place? = some k
  head : ∀ id c k, w.callAt id = some c → c.place? = some k → c.holdsLock = true →
    (w.store.queueOf k).head? = some id

theorem locked_fresh (lifetime : Scope) : Locked (fresh lifetime) where
  nodup := by simp [fresh, Store.queueOf]
  mem := by simp [fresh, Store.queueOf, callAt, task?]
  head := by simp [fresh, callAt, task?]

/-- No two calls are past the check of one document. -/
theorem Locked.unique {w : Workspace} (h : Locked w) {i j : Nat} {c c' : Call} {k : Nat}
    (hi : w.callAt i = some c) (hci : c.place? = some k) (hhi : c.holdsLock = true)
    (hj : w.callAt j = some c') (hcj : c'.place? = some k) (hhj : c'.holdsLock = true) : i = j := by
  have h1 := h.head i c k hi hci hhi
  have h2 := h.head j c' k hj hcj hhj
  rw [h1] at h2
  exact Option.some.inj h2

/-- The queues and the places of the calls stay as they are. -/
theorem Locked.of_stays {w w' : Workspace} (h : Locked w)
    (hq : ∀ k, w'.store.queueOf k = w.store.queueOf k)
    (hp : ∀ j, (w'.callAt j).bind Call.place? = (w.callAt j).bind Call.place?)
    (hh : ∀ id c k, w'.callAt id = some c → c.place? = some k → c.holdsLock = true →
      (w.store.queueOf k).head? = some id) : Locked w' where
  nodup := by
    intro k
    rw [hq]
    exact h.nodup k
  mem := by
    intro k id
    rw [hq, h.mem k id, ← Option.bind_eq_some_iff, ← Option.bind_eq_some_iff, hp]
  head := by
    intro id c k hid hk hhold
    rw [hq]
    exact hh id c k hid hk hhold

/-- A call is in the queue at which it has its place, and in no other. -/
theorem Locked.mem_queueOf {w : Workspace} (h : Locked w) {id : Nat} {c : Call}
    (hcall : w.callAt id = some c) (k : Nat) : id ∈ w.store.queueOf k ↔ c.place? = some k := by
  rw [h.mem k id, ← Option.bind_eq_some_iff, hcall]
  rfl

section Turns

variable {w w' : Workspace} {id : Nat} {c : Call}

/-- A call comes to the end of a queue. -/
theorem Locked.arrives (h : Locked w) (hcall : w.callAt id = some c) {k : Nat} {c' : Call}
    (hqueue : ∀ j, w'.store.queueOf j
      = if j = k then w.store.queueOf j ++ [id] else w.store.queueOf j)
    (hp : c.place? = none) (hp' : c'.place? = some k) (hhold : c'.holdsLock = false)
    (hself : w'.callAt id = some c') (hother : ∀ {j}, j ≠ id → w'.callAt j = w.callAt j) :
    Locked w' := by
  have hnot : ∀ j, id ∉ w.store.queueOf j := by
    intro j
    rw [h.mem_queueOf hcall, hp]
    simp
  refine ⟨fun j => ?_, fun j i => ?_, fun i ci j hi hj hold => ?_⟩
  · rw [hqueue]
    split
    · refine List.nodup_append.2 ⟨h.nodup j, by simp, ?_⟩
      intro a ha b hb hab
      rw [List.mem_singleton.1 hb] at hab
      exact hnot j (hab ▸ ha)
    · exact h.nodup j
  · rw [hqueue]
    by_cases hi : i = id
    · rw [hi, hself]
      by_cases hjk : j = k
      · simp [hjk, hp']
      · have hne : ¬ k = j := fun heq => hjk heq.symm
        simp [hjk, hnot, hp', hne]
    · rw [hother hi, ← h.mem j i]
      split <;> simp [hi]
  · by_cases hid : i = id
    · rw [hid, hself] at hi
      cases hi
      rw [hhold] at hold
      cases hold
    · rw [hother hid] at hi
      have hhead := h.head i ci j hi hj hold
      rw [hqueue]
      split
      · rw [List.head?_append, hhead]
        rfl
      · exact hhead

/-- The head of a queue leaves it. -/
theorem Locked.leaves (h : Locked w) (hcall : w.callAt id = some c) {k : Nat} {rest : List Nat}
    (hrest : w.store.queueOf k = id :: rest)
    (hqueue : ∀ j, w'.store.queueOf j = if j = k then rest else w.store.queueOf j)
    (hp : c.place? = some k) (hp' : (w'.callAt id).bind Call.place? = none)
    (hother : ∀ {j}, j ≠ id → w'.callAt j = w.callAt j) : Locked w' := by
  have hnodup := h.nodup k
  rw [hrest, List.nodup_cons] at hnodup
  refine ⟨fun j => ?_, fun j i => ?_, fun i ci j hi hj hold => ?_⟩
  · rw [hqueue]
    split
    · exact hnodup.2
    · exact h.nodup j
  · rw [hqueue]
    by_cases hi : i = id
    · rw [hi, ← Option.bind_eq_some_iff, hp']
      split
      · simpa using hnodup.1
      · rename_i hjk
        have hne : ¬ k = j := fun heq => hjk heq.symm
        rw [h.mem_queueOf hcall, hp]
        simp [hne]
    · rw [hother hi, ← h.mem j i]
      split
      · rename_i hjk
        rw [hjk, hrest]
        simp [hi]
      · rfl
  · by_cases hid : i = id
    · rw [hid] at hi
      rw [hi] at hp'
      change ci.place? = none at hp'
      rw [hp'] at hj
      cases hj
    · rw [hother hid] at hi
      have hhead := h.head i ci j hi hj hold
      rw [hqueue]
      split
      · rename_i hjk
        rw [hjk, hrest] at hhead
        exact absurd (Option.some.inj hhead).symm hid
      · exact hhead

theorem Locked.turned (h : Locked w) (hst : Staged w) {t : Turn} (hcall : w.callAt id = some c)
    (hs : LockStep w.store w'.store id c t.call?)
    (hc : ∀ j, w'.callAt j = if j = id then t.call? else w.callAt j) : Locked w' := by
  have hother : ∀ {j}, j ≠ id → w'.callAt j = w.callAt j := fun hj => by rw [hc, if_neg hj]
  have hself : w'.callAt id = t.call? := by rw [hc, if_pos rfl]
  cases hs with
  | stays hq hp hh =>
    refine h.of_stays hq (fun j => ?_) (fun j c' k hj hk hhold => ?_)
    · by_cases hji : j = id
      · rw [hji, hself, hcall, hp]
        rfl
      · rw [hother hji]
    · by_cases hji : j = id
      · rw [hji, hself] at hj
        have hck : c.place? = some k := by rw [← hp, hj]; exact hk
        rw [hji]
        rcases hh c' hj hhold with hold | hfirst
        · exact h.head id c k hcall hck hold
        · exact hfirst k hck
      · rw [hother hji] at hj
        exact h.head j c' k hj hk hhold
  | arrives k c' hk hq hp ha hp' hhold =>
    refine h.arrives hcall (fun j => ?_) hp hp' hhold (hself.trans ha) hother
    rw [hq]
    exact Store.queueOf_arrive (hst.mentions hcall k hk) id j
  | leaves k hq hp hp' hfirst =>
    have hhead : (w.store.queueOf k).head? = some id := by
      rcases hfirst with hold | hfirst
      · exact h.head id c k hcall hp hold
      · exact hfirst
    obtain ⟨rest, hrest⟩ := List.head?_eq_some_iff.1 hhead
    refine h.leaves hcall hrest (fun j => ?_) hp (by rw [hself]; exact hp') hother
    rw [hq]
    split
    · rename_i hjk
      rw [hjk, hrest]
      rfl
    · rfl

end Turns

theorem Locked.step {w w' : Workspace} (h : Locked w) (hst : Staged w) (hm : Moved w w') :
    Locked w' := by
  cases hm with
  | aside hs hc =>
    refine h.of_stays (fun k => by rw [hs]) (fun j => by rw [hc]) fun id c k hid hk hold => ?_
    rw [hc] at hid
    exact h.head id c k hid hk hold
  | cancelled scope _ hs hc =>
    refine h.of_stays (fun k => by rw [hs]; rfl) (fun j => by rw [hc]) fun id c k hid hk hold => ?_
    rw [hc] at hid
    exact h.head id c k hid hk hold
  | invoked id request _ _ _ hnone hs hc =>
    have hplace : request.call.place? = none := by cases request <;> rfl
    refine h.of_stays (fun k => by rw [hs]) (fun j => ?_) fun j c k hj hk hold => ?_
    · rw [hc]
      split
      · rename_i hji
        rw [hji, hnone]
        exact hplace
      · rfl
    · rw [hc] at hj
      split at hj
      · cases hj
        rw [hplace] at hk
        cases hk
      · exact h.head j c k hj hk hold
  | turned id c t hcall ht hs hc => exact h.turned hst hcall (ht.lockStep hs) hc

end Workspace

end PromqlServer.Document
