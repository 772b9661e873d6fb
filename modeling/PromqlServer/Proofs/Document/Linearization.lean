import PromqlServer.Proofs.Document.Linear

/-!
Each stretch of a run of the document cache extends the order of its calls, or leaves it as it is:
one lemma for the stretches of `open`, `change`, `close`, `commit` and `shutdown` each.
-/

namespace PromqlServer.Document

/-- A publication is under way. -/
def Call.isPublishing : Call → Bool
  | .publishing .. => true
  | _ => false

namespace Workspace

/-! ## Runs without cancellation from outside -/

/-- The lifetime was cancelled from outside, or it ends with the table. -/
def EndsWithTable (w : Workspace) : Prop :=
  (∃ scope, Event.cancelled scope ∈ w.history) ∨
    (w.store.isCancelled w.store.lifetime = true →
      (∃ id, w.callAt id = some .drain) ∨ Emptied w)

/-- The lifetime is cancelled only by the turn that ends it. -/
theorem isCancelled_lifetime_turned {s s' : Store} {id : Nat} {c : Call} {t : Turn}
    (h : Turned s id c t) (hs : t.store? = some s') (hc : s'.isCancelled s.lifetime = true) :
    s.isCancelled s.lifetime = true ∨ t.call? = some .drain := by
  obtain ⟨scope, hmem, hpre⟩ := Scope.isCancelled_iff.1 hc
  cases h.cancelStep hs with
  | same hsame => exact Or.inl (Scope.isCancelled_iff.2 ⟨scope, hsame ▸ hmem, hpre⟩)
  | slot k _ hs' =>
    rw [hs'] at hmem
    rcases List.mem_cons.1 hmem with rfl | hmem
    · exact absurd hpre Scope.not_child_prefix
    · exact Or.inl (Scope.isCancelled_iff.2 ⟨scope, hmem, hpre⟩)
  | edition k d _ _ _ _ hs' =>
    rw [hs'] at hmem
    rcases List.mem_cons.1 hmem with rfl | hmem
    · exact absurd hpre Scope.not_grandchild_prefix
    · exact Or.inl (Scope.isCancelled_iff.2 ⟨scope, hmem, hpre⟩)
  | lifetime _ _ ha => exact Or.inr ha

theorem EndsWithTable.step {w w' : Workspace} (h : EndsWithTable w) (hm : Moved w w') :
    EndsWithTable w' := by
  rcases h with ⟨scope, hscope⟩ | h
  · exact Or.inl ⟨scope, hm.mem_history hscope⟩
  have hm' := hm
  cases hm with
  | aside hs hc =>
    refine Or.inr fun hended => ?_
    rw [hs] at hended
    rcases h hended with ⟨id, hid⟩ | hempty
    · exact Or.inl ⟨id, by rw [hc, hid]⟩
    · exact Or.inr (hempty.step hm')
  | cancelled scope _ _ _ hh => exact Or.inl ⟨scope, by rw [hh]; exact List.mem_cons_self ..⟩
  | invoked i request _ _ _ hnone hs hc =>
    refine Or.inr fun hended => ?_
    rw [hs] at hended
    rcases h hended with ⟨id, hid⟩ | hempty
    · have hne : id ≠ i := fun hi => by rw [hi, hnone] at hid; cases hid
      exact Or.inl ⟨id, by rw [hc, if_neg hne, hid]⟩
    · exact Or.inr (hempty.step hm')
  | turned i c t hcall ht hs hc =>
    refine Or.inr fun hended => ?_
    rw [hm'.lifetime] at hended
    rcases isCancelled_lifetime_turned ht hs hended with hended | hdrain
    · rcases h hended with ⟨id, hid⟩ | hempty
      · by_cases hi : id = i
        · subst hi
          rw [hid] at hcall
          cases hcall
          generalize hstore : w'.store = u at hs
          cases ht with
          | blocked => cases hs
          | answered hbrief => cases hbrief
          | drained =>
            cases hs
            refine Or.inr ⟨by rw [hm'.lifetime]; exact hm'.isCancelled hended, ?_⟩
            rw [hstore]
        · exact Or.inl ⟨id, by rw [hc, if_neg hi, hid]⟩
      · exact Or.inr (hempty.step hm')
    · exact Or.inl ⟨i, by rw [hc, if_pos rfl, hdrain]⟩

/-- What holds between two stretches of a run in which the lifetime is not cancelled from
outside. -/
structure Steady (w : Workspace) : Prop where
  sound : Sound w
  withdrawn : Withdrawn w
  pruned : Pruned w
  rest : AtRest w
  ended : w.store.isCancelled w.store.lifetime = true → Emptied w

theorem Proceeds.steady {lifetime : Scope} {w : Workspace} (h : Proceeds (fresh lifetime) w)
    (hno : ∀ scope, Event.cancelled scope ∉ w.history) : Steady w := by
  obtain ⟨hr, hrest⟩ := h.spec
  refine ⟨hr.sound (sound_fresh lifetime), hr.withdrawn, hr.pruned, hrest, fun hended => ?_⟩
  have hends : EndsWithTable w := hr.keeps (sound_fresh lifetime)
    (Or.inr fun hc => by simp [fresh, Store.isCancelled, Scope.isCancelled] at hc)
    fun _ _ _ _ hm h => h.step hm
  rcases hends with ⟨scope, hscope⟩ | hends
  · exact absurd hscope (hno scope)
  · rcases hends hended with ⟨id, hid⟩ | hempty
    · cases hrest id _ hid
    · exact hempty

/-- A tracked document is live. -/
theorem Steady.live_of_tracked {w : Workspace} (h : Steady w) {k : Nat} (hk : w.store.Tracked k) :
    w.store.isCancelled (w.store.slotScope k) = false := by
  rw [← Bool.not_eq_true, isCancelled_slotScope]
  rintro (hslot | hended)
  · exact (h.pruned.slots k hslot).2 hk
  · obtain ⟨uri, hmem⟩ := hk
    rw [(h.ended hended).2] at hmem
    cases hmem

/-- A call that waits for a document with work that can expire. -/
theorem Steady.request_of_expires {w : Workspace} (h : Steady w) {id k : Nat} {work : Work}
    (hcall : w.callAt id = some (.queued k work)) (hw : work.expires = true) :
    ∃ r uri d, Event.invoked id r ∈ w.history ∧ r.work? = some (uri, work) ∧
      w.store.dataOf k = some d ∧ d.uri = uri := by
  obtain ⟨r, hr, hserve⟩ := h.sound.staged.calls id _ hcall
  cases hserve with
  | start hc => cases r <;> cases hc
  | queued hwork hd hu => exact ⟨r, _, _, hr, hwork, hd, hu⟩
  | committing => cases hw

/-! ## What the calls with a place have done -/

/-- Stores that differ in their queues only. -/
structure Alike (s s' : Store) : Prop where
  lifetime : s'.lifetime = s.lifetime
  cancelled : s'.cancelled = s.cancelled
  table : s'.table = s.table
  length : s'.slots.length = s.slots.length
  data : ∀ k, s'.dataOf k = s.dataOf k

theorem Alike.refl (s : Store) : Alike s s := ⟨rfl, rfl, rfl, rfl, fun _ => rfl⟩

theorem Alike.trans {s s' s'' : Store} (h : Alike s s') (h' : Alike s' s'') : Alike s s'' where
  lifetime := h'.lifetime.trans h.lifetime
  cancelled := h'.cancelled.trans h.cancelled
  table := h'.table.trans h.table
  length := h'.length.trans h.length
  data k := (h'.data k).trans (h.data k)

theorem alike_arrive (s : Store) (id k : Nat) : Alike s (s.arrive id k) where
  lifetime := rfl
  cancelled := rfl
  table := rfl
  length := by simp [Store.arrive]
  data j := Store.dataOf_arrive s id k j

theorem alike_release (s : Store) (k : Nat) : Alike s (s.release k) where
  lifetime := rfl
  cancelled := rfl
  table := rfl
  length := by simp [Store.release]
  data j := Store.dataOf_release s k j

section Mirror

variable {w w' : Workspace} {s s' : Store} {id : Nat} {c : Call} {t : Turn}

theorem Mirrors.lookup (h : Mirrors w s) (uri : Uri) : s.lookup uri = w.store.lookup uri := by
  unfold Store.lookup
  rw [h.table]

theorem Mirrors.isCancelled (h : Mirrors w s) (scope : Scope) :
    s.isCancelled scope = w.store.isCancelled scope := by
  unfold Store.isCancelled
  rw [h.cancelled]

theorem Mirrors.slotScope (h : Mirrors w s) (k : Nat) : s.slotScope k = w.store.slotScope k := by
  unfold Store.slotScope
  rw [h.lifetime]

theorem Mirrors.editionScope (h : Mirrors w s) (k n : Nat) :
    s.editionScope k n = w.store.editionScope k n := by
  unfold Store.editionScope
  rw [h.slotScope]

theorem Mirrors.slot (h : Mirrors w s) {k : Nat} {d : Slot} (hd : w.store.dataOf k = some d) :
    ∃ d', s.slots[k]? = some d' ∧ d'.uri = d.uri := by
  rcases h.slots k d hd with ⟨hk, _⟩ | ⟨_, r, _, hk⟩
  · exact ⟨d, hk, rfl⟩
  · exact ⟨_, hk, rfl⟩

/-- Where the call that has the lock does not publish, the document is as the store has it. -/
theorem Mirrors.slot_of_head (h : Mirrors w s) (hw : Sound w) {k : Nat} {d : Slot}
    (hcall : w.callAt id = some c) (hc : c.isPublishing = false)
    (hd : w.store.held id k = some d) :
    s.slots[k]? = some d.data ∧ ∀ j r, w.callAt j ≠ some (.publishing k r) := by
  have hhead := Store.head_of_held hd
  rcases h.slots k d.data (Store.dataOf_eq (Store.held_eq_some_iff.1 hd).1) with
    hk | ⟨j, r, hj, _⟩
  · exact hk
  · have hheadj := hw.locked.head j _ k hj rfl rfl
    rw [hhead] at hheadj
    cases Option.some.inj hheadj
    rw [hcall] at hj
    cases hj
    cases hc

/-- The publications under way are the same after a stretch in which none begins or ends. -/
theorem StretchTaken.publishing_iff (hs : StretchTaken w w' id t) (hcall : w.callAt id = some c)
    (hc : c.isPublishing = false) (ht : ∀ c', t.call? = some c' → c'.isPublishing = false)
    (j k : Nat) (r : Report) :
    w'.callAt j = some (.publishing k r) ↔ w.callAt j = some (.publishing k r) := by
  rw [hs.calls]
  split
  · rename_i hji
    rw [hji, hcall]
    constructor
    · intro h
      cases ht _ h
    · intro h
      cases h
      cases hc
  · exact Iff.rfl

theorem StretchTaken.publishing_iff_done {u : Store} {reply : Reply}
    (hs : StretchTaken w w' id (.done u reply)) (hcall : w.callAt id = some c)
    (hc : c.isPublishing = false) (j k : Nat) (r : Report) :
    w'.callAt j = some (.publishing k r) ↔ w.callAt j = some (.publishing k r) := by
  refine hs.publishing_iff hcall hc (fun c' hc' => ?_) j k r
  cases hc'

theorem StretchTaken.publishing_iff_next {u : Store} {c' : Call}
    (hs : StretchTaken w w' id (.next u c')) (hcall : w.callAt id = some c)
    (hc : c.isPublishing = false) (hc' : c'.isPublishing = false) (j k : Nat) (r : Report) :
    w'.callAt j = some (.publishing k r) ↔ w.callAt j = some (.publishing k r) := by
  refine hs.publishing_iff hcall hc (fun c'' hc'' => ?_) j k r
  cases hc''
  exact hc'

/-- A document that a stretch leaves as it is, or whose publications are over. -/
theorem Mirrors.slots_step (h : Mirrors w s)
    (hpub : ∀ j k r, w'.callAt j = some (.publishing k r) ↔ w.callAt j = some (.publishing k r))
    {k : Nat} {d : Slot}
    (hk : (w.store.dataOf k = some d ∧ s'.slots[k]? = s.slots[k]?) ∨
      (s'.slots[k]? = some d ∧ ∀ j r, w.callAt j ≠ some (.publishing k r))) :
    (s'.slots[k]? = some d ∧ ∀ j r, w'.callAt j ≠ some (.publishing k r)) ∨
      ∃ j r, w'.callAt j = some (.publishing k r) ∧ s'.slots[k]? = some (d.recorded r) := by
  rcases hk with ⟨hd, hsame⟩ | ⟨hd, hno⟩
  · rw [hsame]
    rcases h.slots k d hd with ⟨hs, hno⟩ | ⟨j, r, hj, hs⟩
    · exact Or.inl ⟨hs, fun j r hj => hno j r ((hpub j k r).1 hj)⟩
    · exact Or.inr ⟨j, r, (hpub j k r).2 hj, hs⟩
  · exact Or.inl ⟨hd, fun j r hj => hno j r ((hpub j k r).1 hj)⟩

theorem Mirrors.alike (h : Mirrors w s) (ha : Alike w.store w'.store)
    (hpub : ∀ j k r, w'.callAt j = some (.publishing k r) ↔ w.callAt j = some (.publishing k r)) :
    Mirrors w' s where
  lifetime := h.lifetime.trans ha.lifetime.symm
  cancelled := h.cancelled.trans ha.cancelled.symm
  table := h.table.trans ha.table.symm
  length := h.length.trans ha.length.symm
  slots := fun k d hd => h.slots_step hpub (Or.inl ⟨by rw [← ha.data, hd], rfl⟩)

end Mirror

/-! ## Stretches in which no call gets its place -/

section Keep

variable {lifetime : Scope} {w w' : Workspace} {s : Store} {order : List Entry} {id : Nat}

theorem StretchTaken.held {k : Nat} {work : Work}
    (hs : StretchTaken w w' id (w.store.stretch id (.queued k work))) :
    ∃ d, w.store.held id k = some d := by
  cases hd : w.store.held id k with
  | some d => exact ⟨d, rfl⟩
  | none =>
    have hblocked : w.store.stretch id (.queued k work) = .blocked := by
      simp [Store.stretch, Store.turn, hd, Store.toNextAwait]
    rw [hblocked] at hs
    cases hs.store

theorem Linear.quiet (h : Linear lifetime w s order) : s.Quiet :=
  h.replays.quiet (Store.quiet_fresh lifetime)

/-- A call goes from one wait to the next and leaves the documents as they are. -/
theorem Linear.moves (h : Linear lifetime w s order) {c c' : Call} {u : Store}
    (hcall : w.callAt id = some c) (hc : c.isPublishing = false)
    (hs : StretchTaken w w' id (.next u c')) (hc' : c'.isPublishing = false) (hu : Alike w.store u)
    (hpromise : s.promise c' = s.promise c) : Linear lifetime w' s order := by
  refine h.keep hcall hs (h.mirrors.alike ?_ ?_) ?_ ?_
  · rw [← Option.some.inj hs.store]
    exact hu
  · exact hs.publishing_iff_next hcall hc hc'
  · intro c'' hc''
    cases hc''
    exact hpromise
  · intro v r ht
    cases ht

/-- A call returns what it was to return, and leaves the documents as they are. -/
theorem Linear.returns (h : Linear lifetime w s order) {c : Call} {u : Store} {reply : Reply}
    (hcall : w.callAt id = some c) (hc : c.isPublishing = false)
    (hs : StretchTaken w w' id (.done u reply)) (hu : Alike w.store u)
    (hpromise : s.promise c = some reply) : Linear lifetime w' s order := by
  refine h.keep hcall hs (h.mirrors.alike ?_ ?_) ?_ ?_
  · rw [← Option.some.inj hs.store]
    exact hu
  · exact hs.publishing_iff_done hcall hc
  · intro c' hc'
    cases hc'
  · intro v r ht
    cases ht
    exact hpromise

/-- A call that looks a document up and comes to its lock. -/
theorem Linear.find (h : Linear lifetime w s order) (hw : Steady w) {uri : Uri} {work : Work}
    {k : Nat} (hwork : work.expires = true) (hcall : w.callAt id = some (.find uri work))
    (hk : w.store.lookup uri = some k)
    (hs : StretchTaken w w' id (w.store.stretch id (.find uri work))) :
    Linear lifetime w' s order := by
  have hstretch : w.store.stretch id (.find uri work)
      = .next (w.store.arrive id k) (.queued k work) := by
    cases work <;> first
      | cases hwork; done
      | simp [Store.stretch, Store.turn, hk, Store.toNextAwait, Call.isMidway, Call.toGo]
  rw [hstretch] at hs
  have hlive := hw.live_of_tracked ⟨uri, Store.mem_table_of_lookup hk⟩
  refine h.moves hcall rfl hs rfl (alike_arrive ..) ?_
  rw [Store.promise_expires hwork, h.mirrors.isCancelled, h.mirrors.slotScope, hlive]
  rfl

/-- A commit that comes to the lock of its document. -/
theorem Linear.commitArrives (h : Linear lifetime w s order) {e : Edition} {report : Report}
    (hcall : w.callAt id = some (.arrive e.slot (.commit e report)))
    (hs : StretchTaken w w' id (w.store.stretch id (.arrive e.slot (.commit e report)))) :
    Linear lifetime w' s order := by
  have hstretch : w.store.stretch id (.arrive e.slot (.commit e report))
      = .next (w.store.arrive id e.slot) (.queued e.slot (.commit e report)) := rfl
  rw [hstretch] at hs
  exact h.moves hcall rfl hs rfl (alike_arrive ..) rfl

/-- A call that gets the lock of a document after the document was closed. -/
theorem Linear.expire (h : Linear lifetime w s order) {k : Nat} {work : Work}
    (hwork : work.expires = true) (hcall : w.callAt id = some (.queued k work))
    (hclosed : w.store.isCancelled (w.store.slotScope k) = true)
    (hs : StretchTaken w w' id (w.store.stretch id (.queued k work))) :
    Linear lifetime w' s order := by
  obtain ⟨d, hd⟩ := hs.held
  have hstretch : w.store.stretch id (.queued k work)
      = .done (w.store.release k) (.failed (.expired d.uri)) := by
    cases work <;> first
      | cases hwork; done
      | simp [Store.stretch, Store.turn, hd, Store.check, hclosed, Store.toNextAwait]
  rw [hstretch] at hs
  obtain ⟨d', hd', huri⟩ := h.mirrors.slot (Store.dataOf_eq (Store.held_eq_some_iff.1 hd).1)
  refine h.returns hcall rfl hs (alike_release ..) ?_
  rw [Store.promise_expires hwork, h.mirrors.isCancelled, h.mirrors.slotScope, hclosed, if_pos rfl,
    hd', Option.map_some, huri, Slot.data_uri]

/-- A close that gets the lock of the document that it has taken out of the table. -/
theorem Linear.closeReturns (h : Linear lifetime w s order) (hw : Sound w) {k : Nat}
    (hcall : w.callAt id = some (.queued k .close))
    (hs : StretchTaken w w' id (w.store.stretch id (.queued k .close))) :
    Linear lifetime w' s order := by
  obtain ⟨d, hd⟩ := hs.held
  have hstretch : w.store.stretch id (.queued k .close)
      = .done (w.store.release k) (.closed d.close) := by
    simp [Store.stretch, Store.turn, hd, Store.check, Store.toNextAwait]
  rw [hstretch] at hs
  obtain ⟨hk, _⟩ := h.mirrors.slot_of_head hw hcall rfl hd
  refine h.returns hcall rfl hs (alike_release ..) ?_
  rw [Store.promise, hk]
  rfl

/-- A publication that ends. -/
theorem Linear.publicationEnds (h : Linear lifetime w s order) (hw : Sound w) {k : Nat}
    {report : Report} (hcall : w.callAt id = some (.publishing k report))
    (hs : StretchTaken w w' id (w.store.stretch id (.publishing k report))) :
    Linear lifetime w' s order := by
  have hstretch : w.store.stretch id (.publishing k report)
      = .done (w.store.record k report) .committed := rfl
  rw [hstretch] at hs
  have hstore : w'.store = w.store.record k report := (Option.some.inj hs.store).symm
  have hcalls : ∀ j i r, w'.callAt j = some (.publishing i r) →
      i ≠ k ∧ w.callAt j = some (.publishing i r) := by
    intro j i r hj
    rw [hs.calls] at hj
    split at hj
    · cases hj
    · rename_i hji
      refine ⟨?_, hj⟩
      rintro rfl
      exact hji (hw.locked.unique hj rfl rfl hcall rfl rfl)
  refine h.keep hcall hs ⟨?_, ?_, ?_, ?_, fun j d hd => ?_⟩ ?_ ?_
  · rw [hstore, h.mirrors.lifetime]
    rfl
  · rw [hstore, h.mirrors.cancelled]
    rfl
  · rw [hstore, h.mirrors.table]
    rfl
  · rw [hstore, h.mirrors.length]
    simp [Store.record, Store.release]
  · rw [hstore, Store.dataOf_record] at hd
    split at hd
    · -- the document of the publication, whose report is in the store now
      rename_i hjk
      subst hjk
      obtain ⟨d0, hd0, rfl⟩ := Option.map_eq_some_iff.1 hd
      refine Or.inl ⟨?_, fun i r hi => (hcalls i j r hi).1 rfl⟩
      rcases h.mirrors.slots j d0 hd0 with ⟨_, hno⟩ | ⟨i, r, hi, hrec⟩
      · exact absurd hcall (hno id report)
      · cases hw.locked.unique hi rfl rfl hcall rfl rfl
        rw [hcall] at hi
        cases hi
        exact hrec
    · rename_i hjk
      rcases h.mirrors.slots j d hd with ⟨hk, hno⟩ | ⟨i, r, hi, hrec⟩
      · exact Or.inl ⟨hk, fun i r hi => hno i r (hcalls i j r hi).2⟩
      · refine Or.inr ⟨i, r, ?_, hrec⟩
        rw [hs.calls, if_neg, hi]
        rintro rfl
        rw [hcall] at hi
        cases hi
        exact hjk rfl
  · intro c' hc'
    cases hc'
  · intro u r ht
    cases ht
    rfl

/-- A shutdown that gets the lock of one of its documents and goes on to the next. -/
theorem Linear.collect (h : Linear lifetime w s order) (hw : Sound w) {k : Nat} {ks : List Nat}
    {closed : List Closed} (hcall : w.callAt id = some (.collecting k ks closed))
    (hs : StretchTaken w w' id (w.store.stretch id (.collecting k ks closed))) :
    Linear lifetime w' s order := by
  cases hd : w.store.held id k with
  | none =>
    have hblocked : w.store.stretch id (.collecting k ks closed) = .blocked := by
      simp [Store.stretch, Store.turn, hd, Store.toNextAwait]
    rw [hblocked] at hs
    cases hs.store
  | some d =>
    obtain ⟨hk, _⟩ := h.mirrors.slot_of_head hw hcall rfl hd
    have hpromise : s.promise (.collecting k ks closed)
        = some (.drained (closed ++ [d.close] ++ s.closeAll ks)) := by
      rw [Store.promise, Store.closeAll_cons hk, List.append_assoc]
      rfl
    cases ks with
    | nil =>
      have hstretch : w.store.stretch id (.collecting k [] closed)
          = .done (w.store.release k) (.drained (closed ++ [d.close])) := by
        simp [Store.stretch, Store.turn, hd, Store.toNextAwait, Call.isMidway, Call.toGo]
      rw [hstretch] at hs
      refine h.returns hcall rfl hs (alike_release ..) ?_
      rw [hpromise]
      simp [Store.closeAll]
    | cons j ks =>
      have hstretch : w.store.stretch id (.collecting k (j :: ks) closed)
          = .next ((w.store.release k).arrive id j) (.collecting j ks (closed ++ [d.close])) := by
        simp [Store.stretch, Store.turn, hd, Store.toNextAwait, Call.isMidway, Call.toGo]
      rw [hstretch] at hs
      refine h.moves hcall rfl hs rfl ((alike_release ..).trans (alike_arrive ..)) ?_
      rw [hpromise]
      rfl

end Keep

/-- To cancel an edition cancels no document. -/
theorem isCancelled_slotScope_cancel (s : Store) (i k n : Nat) :
    (s.cancel (s.editionScope k n)).isCancelled (s.slotScope i)
      = s.isCancelled (s.slotScope i) := by
  have hnot : (s.editionScope k n).isPrefixOf (s.slotScope i) = false := by
    rw [← Bool.not_eq_true, List.isPrefixOf_iff_prefix]
    intro hpre
    rcases Scope.prefix_child_iff.1 hpre with heq | hpre
    · exact slotScope_ne_editionScope s i k n heq.symm
    · exact Scope.not_grandchild_prefix hpre
  simp [Store.isCancelled, Store.cancel, Scope.isCancelled, hnot]

theorem perform_of_work? {s : Store} {r : Request} {uri : Uri} {work : Work}
    (hr : r.work? = some (uri, work)) (hwork : work.expires = true) :
    s.perform r = s.visit uri work := by
  cases r <;> cases hr <;> first | rfl | cases hwork

theorem accepts_of_work? {s : Store} {r : Request} {uri : Uri} {work : Work}
    (hr : r.work? = some (uri, work)) : s.Accepts r := by
  cases r <;> trivial

/-! ## Stretches in which a call gets its place -/

section Extend

variable {lifetime : Scope} {w w' : Workspace} {s s' : Store} {order : List Entry} {id : Nat}

/-- Nothing that is done to a tracked document changes what other calls will return. -/
theorem Steady.promise_eq (hw : Steady w)
    (hslots : ∀ k, k < w.store.slots.length → ¬ w.store.Tracked k → s'.slots[k]? = s.slots[k]?)
    (hcancelled : ∀ k, s'.isCancelled (s'.slotScope k) = s.isCancelled (s.slotScope k))
    (huri : ∀ k, k < w.store.slots.length →
      (s'.slots[k]?).map Slot.uri = (s.slots[k]?).map Slot.uri)
    {j : Nat} {c : Call} (hj : w.callAt j = some c) : s'.promise c = s.promise c := by
  have hmentions := hw.sound.staged.mentions hj
  refine Store.promise_congr (fun k hk => ?_) fun k work hc _ => ⟨hcancelled k, huri k ?_⟩
  · exact hslots k (hmentions k (Call.removes_subset_mentions hk))
      (hw.withdrawn.untracked j c k hj hk)
  · subst hc
    exact hmentions k (List.mem_singleton.2 rfl)

/-- A call that returns and leaves the documents as they are. -/
theorem Linear.answer (h : Linear lifetime w s order) (hw : Sound w) {c : Call} {r : Request}
    {reply : Reply} {u : Store} (hcall : w.callAt id = some c) (hc : c.isPublishing = false)
    (hinvoked : Event.invoked id r ∈ w.history) (haccepts : s.Accepts r)
    (hs : StretchTaken w w' id (.done u reply)) (hu : Alike w.store u)
    (hperform : s.perform r = (s, reply)) (hnew : s.promise c = none) :
    ∃ s' order', Linear lifetime w' s' order' := by
  refine ⟨s, h.extend_done hw hcall hs hinvoked haccepts hperform (h.mirrors.alike ?_ ?_) hnew
    fun _ _ _ _ => Or.inl rfl⟩
  · rw [← Option.some.inj hs.store]
    exact hu
  · exact hs.publishing_iff_done hcall hc

/-- A document is opened. -/
theorem Linear.opens (h : Linear lifetime w s order) (hw : Steady w) {uri : Uri} {content : String}
    {version : Int} (hcall : w.callAt id = some (.track uri content version))
    (hinvoked : Event.invoked id (.track uri content version) ∈ w.history)
    (hs : StretchTaken w w' id (w.store.stretch id (.track uri content version))) :
    ∃ s' order', Linear lifetime w' s' order' := by
  have hlook := h.mirrors.lookup uri
  have hended := h.mirrors.isCancelled w.store.lifetime
  have hstretch : w.store.stretch id (.track uri content version)
      = .done (w.store.track uri content version).1 (w.store.track uri content version).2 := rfl
  rw [hstretch] at hs
  by_cases hopen : (w.store.lookup uri).isSome = true
  · have htrack : w.store.track uri content version = (w.store, .failed (.alreadyOpen uri)) := by
      simp [Store.track, hopen]
    rw [htrack] at hs
    refine h.answer hw.sound hcall rfl hinvoked trivial hs (Alike.refl _) ?_ rfl
    simp [Store.perform, Store.track, hlook, hopen]
  by_cases hover : w.store.isCancelled w.store.lifetime = true
  · have htrack : w.store.track uri content version = (w.store, .failed .shutDown) := by
      simp [Store.track, hopen, hover]
    rw [htrack] at hs
    refine h.answer hw.sound hcall rfl hinvoked trivial hs (Alike.refl _) ?_ rfl
    simp [Store.perform, Store.track, hlook, hopen, h.mirrors.lifetime, hended, hover]
  · have htrack : ∀ s : Store, ¬ (s.lookup uri).isSome = true → ¬ s.isCancelled s.lifetime = true →
        s.track uri content version = (s.withSlot uri content version,
          .opened ⟨uri, version, content, s.slots.length, s.editionScope s.slots.length 0⟩) := by
      intro s hl hc
      rw [Store.track, if_neg hl, if_neg hc]
      rfl
    have hperform := htrack s (by rwa [hlook]) (by rwa [h.mirrors.lifetime, hended])
    rw [htrack w.store hopen hover, ← h.mirrors.length, ← h.mirrors.editionScope] at hs
    have hstore : w'.store = w.store.withSlot uri content version := (Option.some.inj hs.store).symm
    have hpub := hs.publishing_iff_done hcall rfl
    have hquiet : (s.withSlot uri content version).Quiet := by
      have := h.quiet.perform (.track uri content version)
      rwa [Store.perform, hperform] at this
    have hslot : ∀ k, (s.withSlot uri content version).slots[k]?
        = if k = s.slots.length then some { uri, version, content } else s.slots[k]? := by
      intro k
      rw [hquiet.slot, h.quiet.slot, Store.dataOf_withSlot]
    have hold : ∀ k, k < w.store.slots.length →
        (s.withSlot uri content version).slots[k]? = s.slots[k]? := by
      intro k hk
      rw [hslot, if_neg (by rw [h.mirrors.length]; omega)]
    refine ⟨_, h.extend_done hw.sound hcall hs hinvoked trivial hperform ⟨?_, ?_, ?_, ?_, ?_⟩ rfl
      fun j c _ hj => Or.inl (hw.promise_eq (fun k hk _ => hold k hk) (fun _ => rfl)
        (fun k hk => by rw [hold k hk]) hj)⟩
    · rw [hstore]
      exact h.mirrors.lifetime
    · rw [hstore]
      exact h.mirrors.cancelled
    · rw [hstore]
      simp [Store.withSlot, h.mirrors.table, h.mirrors.length]
    · rw [hstore]
      simp [Store.withSlot, h.mirrors.length]
    · intro k d hd
      refine h.mirrors.slots_step hpub ?_
      rw [hstore, Store.dataOf_withSlot] at hd
      split at hd
      · rename_i hk
        refine Or.inr ⟨by rw [hslot, if_pos (hk.trans h.mirrors.length.symm), hd], ?_⟩
        intro j r hj
        have := hw.sound.staged.mentions hj k (List.mem_singleton.2 rfl)
        omega
      · exact Or.inl ⟨hd, hold k (Store.lt_of_dataOf hd)⟩

/-- The text of a tracked document is replaced. -/
theorem Linear.replaces (h : Linear lifetime w s order) (hw : Steady w) {k : Nat} {d : Slot}
    {content : String} {version : Int} {r : Request}
    (hcall : w.callAt id = some (.queued k (.change content version)))
    (hinvoked : Event.invoked id r ∈ w.history) (haccepts : s.Accepts r)
    (htracked : w.store.Tracked k) (hd : w.store.held id k = some d)
    (hperform : s.perform r
      = (s.cancel (s.editionScope k d.revision)).replace k d.data content version)
    (hnew : s.promise (.queued k (.change content version)) = none)
    (hs : StretchTaken w w' id
      (.done ((w.store.cancel (w.store.editionScope k d.revision)).replace k d content version).1
        ((w.store.cancel (w.store.editionScope k d.revision)).replace k d content version).2)) :
    ∃ s' order', Linear lifetime w' s' order' := by
  obtain ⟨hk, hno⟩ := h.mirrors.slot_of_head hw.sound hcall rfl hd
  obtain ⟨hslotk, _⟩ := Store.held_eq_some_iff.1 hd
  have hstore := (Option.some.inj hs.store).symm
  have hpub := hs.publishing_iff_done hcall rfl
  obtain ⟨s', hs'⟩ : ∃ s', s' = ((s.cancel (s.editionScope k d.revision)).replace k d.data content
    version).1 := ⟨_, rfl⟩
  have hquiet : s'.Quiet := by
    have := h.quiet.perform r
    rwa [hperform, ← hs'] at this
  have hslot : ∀ j, s'.slots[j]?
      = if j = k then some (d.data.revised content version) else s.slots[j]? := by
    intro j
    rw [hquiet.slot, h.quiet.slot, hs', Store.dataOf_replace (s := s.cancel _) hk,
      Store.dataOf_cancel]
    rfl
  have hreply : ((w.store.cancel (w.store.editionScope k d.revision)).replace k d content version).2
      = ((s.cancel (s.editionScope k d.revision)).replace k d.data content version).2 := by
    have hscope := h.mirrors.editionScope k (d.revision + 1)
    exact congrArg (fun scope => Reply.opened ⟨d.uri, version, content, k, scope⟩) hscope.symm
  rw [hreply] at hs
  refine ⟨s', h.extend_done hw.sound hcall hs hinvoked haccepts
    (hperform.trans (Prod.ext hs'.symm rfl)) ⟨?_, ?_, ?_, ?_, ?_⟩ hnew fun j c _ hj => Or.inl ?_⟩
  · rw [hstore, hs']
    exact h.mirrors.lifetime
  · rw [hstore, hs']
    simp [Store.replace, Store.release, Store.cancel, h.mirrors.editionScope, h.mirrors.cancelled]
  · rw [hstore, hs']
    exact h.mirrors.table
  · rw [hstore, hs']
    simp [Store.replace, Store.release, Store.cancel, h.mirrors.length]
  · intro j d' hd'
    refine h.mirrors.slots_step hpub ?_
    rw [hstore, Store.dataOf_replace (s := w.store.cancel _) hslotk, Store.dataOf_cancel] at hd'
    split at hd'
    · rename_i hjk
      subst hjk
      exact Or.inr ⟨by rw [hslot, if_pos rfl, hd'], hno⟩
    · rename_i hjk
      exact Or.inl ⟨hd', by rw [hslot, if_neg hjk]⟩
  · refine hw.promise_eq (fun i _ hi => ?_) (fun i => ?_) (fun i hi => ?_) hj
    · rw [hslot, if_neg]
      rintro rfl
      exact hi htracked
    · have hscope : s'.slotScope i = s.slotScope i := by rw [hs']; rfl
      rw [hscope, hs']
      exact isCancelled_slotScope_cancel s i k d.revision
    · rw [hslot]
      split
      · rename_i hik
        rw [hik, hk]
        rfl
      · rfl

/-- A call that gets the lock of a tracked document with work that can expire. -/
theorem Linear.visits (h : Linear lifetime w s order) (hw : Steady w) {k : Nat} {work : Work}
    (hwork : work.expires = true) (hcall : w.callAt id = some (.queued k work))
    (hlive : w.store.isCancelled (w.store.slotScope k) = false)
    (hs : StretchTaken w w' id (w.store.stretch id (.queued k work))) :
    ∃ s' order', Linear lifetime w' s' order' := by
  obtain ⟨d, hd⟩ := hs.held
  obtain ⟨r, uri, d', hinvoked, hr, hd', huri⟩ := hw.request_of_expires hcall hwork
  obtain ⟨hslotk, _⟩ := Store.held_eq_some_iff.1 hd
  rw [Store.dataOf_eq hslotk] at hd'
  cases hd'
  obtain ⟨hk, _⟩ := h.mirrors.slot_of_head hw.sound hcall rfl hd
  have htracked := hw.withdrawn.tracked_of_live hw.rest
    (Store.lt_of_dataOf (Store.dataOf_eq hslotk)) hlive
  have hdoc : s.document? uri = some (k, d.data) := by
    obtain ⟨u, hu⟩ := htracked
    obtain ⟨d0, hd0, rfl⟩ := hw.sound.staged.table u k hu
    rw [Store.dataOf_eq hslotk] at hd0
    cases hd0
    have hlook := h.mirrors.lookup uri
    rw [hw.withdrawn.lookup_eq_some_iff.2 (huri ▸ hu)] at hlook
    simp [Store.document?, hlook, hk]
  have hperform : s.perform r = s.attend k d.data work := by
    rw [perform_of_work? hr hwork, Store.visit, hdoc]
  have haccepts : s.Accepts r := accepts_of_work? hr
  have hlive' : s.isCancelled (s.slotScope k) = false := by
    rw [h.mirrors.isCancelled, h.mirrors.slotScope, hlive]
  have hnew : s.promise (.queued k work) = none := by
    rw [Store.promise_expires hwork, hlive']
    rfl
  cases work with
  | close | commit => cases hwork
  | version =>
    have hstretch : w.store.stretch id (.queued k .version)
        = .done (w.store.release k) (.version d.version) := by
      simp [Store.stretch, Store.turn, hd, Store.check, hlive, Store.toNextAwait]
    rw [hstretch] at hs
    refine h.answer hw.sound hcall rfl hinvoked haccepts hs (alike_release ..) ?_ hnew
    simp [hperform, Store.attend, hlive']
  | snapshot =>
    have hstretch : w.store.stretch id (.queued k .snapshot)
        = .done (w.store.release k) (.snapshot ⟨d.uri, d.version, d.content, d.report⟩) := by
      simp [Store.stretch, Store.turn, hd, Store.check, hlive, Store.toNextAwait]
    rw [hstretch] at hs
    refine h.answer hw.sound hcall rfl hinvoked haccepts hs (alike_release ..) ?_ hnew
    simp [hperform, Store.attend, hlive']
  | change content version =>
    by_cases hv : version ≤ d.version
    · have hstretch : w.store.stretch id (.queued k (.change content version))
          = .done (w.store.release k) (.failed (.outOfOrder d.uri d.version version)) := by
        simp [Store.stretch, Store.turn, hd, Store.check, hlive, hv, Store.toNextAwait]
      rw [hstretch] at hs
      refine h.answer hw.sound hcall rfl hinvoked haccepts hs (alike_release ..) ?_ hnew
      simp [hperform, Store.attend, hlive', hv]
    · have hheld : (w.store.cancel (w.store.editionScope k d.revision)).held id k = some d := hd
      have hstretch : w.store.stretch id (.queued k (.change content version))
          = .done ((w.store.cancel (w.store.editionScope k d.revision)).replace k d content
              version).1
            ((w.store.cancel (w.store.editionScope k d.revision)).replace k d content
              version).2 := by
        simp [Store.stretch, Store.turn, hd, hheld, Store.check, hlive, hv, Store.toNextAwait,
          Call.isMidway, Call.toGo]
      rw [hstretch] at hs
      refine h.replaces hw hcall hinvoked haccepts htracked hd ?_ hnew hs
      simp [hperform, Store.attend, hlive', hv]

/-- A publication that begins is recorded at once. -/
theorem Linear.publishes (h : Linear lifetime w s order) {c : Call} {k : Nat} {report : Report}
    {d : Slot} (hcall : w.callAt id = some c) (hplace : c.place? = some k)
    (hdata : w.store.dataOf k = some d) (hk : s.slots[k]? = some d)
    (hs : StretchTaken w w' id (.next w.store (.publishing k report))) :
    Mirrors w' (s.record k report) := by
  have hstore : w'.store = w.store := (Option.some.inj hs.store).symm
  have hself : w'.callAt id = some (.publishing k report) := by
    rw [hs.calls, if_pos rfl]
    rfl
  refine ⟨?_, ?_, ?_, ?_, fun j d' hd' => ?_⟩
  · rw [hstore]
    exact h.mirrors.lifetime
  · rw [hstore]
    exact h.mirrors.cancelled
  · rw [hstore]
    exact h.mirrors.table
  · rw [hstore, ← h.mirrors.length]
    simp [Store.record, Store.release]
  · rw [hstore] at hd'
    rw [h.quiet.slot_record]
    by_cases hj : j = k
    · subst hj
      rw [hdata] at hd'
      cases hd'
      refine Or.inr ⟨id, report, hself, ?_⟩
      rw [if_pos rfl, hk]
      rfl
    · rw [if_neg hj]
      rcases h.mirrors.slots j d' hd' with ⟨hj', hno⟩ | ⟨i, r, hi, hrecorded⟩
      · refine Or.inl ⟨hj', fun i r hi => ?_⟩
        by_cases hii : i = id
        · rw [hii, hself] at hi
          cases hi
          exact hj rfl
        · rw [hs.calls, if_neg hii] at hi
          exact hno i r hi
      · refine Or.inr ⟨i, r, ?_, hrecorded⟩
        rw [hs.calls, if_neg, hi]
        rintro rfl
        rw [hcall] at hi
        cases hi
        exact hj (Option.some.inj hplace)

/-- A commit that gets the lock of its document: it fails, or its publication begins. -/
theorem Linear.commits (h : Linear lifetime w s order) (hw : Steady w) {e : Edition}
    {report : Report} (hcall : w.callAt id = some (.queued e.slot (.commit e report)))
    (hinvoked : Event.invoked id (.commit e report) ∈ w.history)
    (hs : StretchTaken w w' id (w.store.stretch id (.queued e.slot (.commit e report)))) :
    ∃ s' order', Linear lifetime w' s' order' := by
  obtain ⟨d, hd⟩ := hs.held
  obtain ⟨hslotk, _⟩ := Store.held_eq_some_iff.1 hd
  obtain ⟨hk, hno⟩ := h.mirrors.slot_of_head hw.sound hcall rfl hd
  have hlt := Store.lt_of_dataOf (Store.dataOf_eq hslotk)
  have haccepts : s.Accepts (.commit e report) := by
    rw [Store.Accepts, h.mirrors.length]
    exact hlt
  have hperform : s.perform (.commit e report) = s.attend e.slot d.data (.commit e report) := by
    simp only [Store.perform, hk]
  have hcancelled := h.mirrors.isCancelled e.scope
  by_cases hover : (w.store.isCancelled e.scope || d.version ≠ e.version) = true
  · have hstretch : w.store.stretch id (.queued e.slot (.commit e report))
        = .done (w.store.release e.slot) (.failed (.expired d.uri)) := by
      simp only [Store.stretch, Store.turn, hd, Store.check, hover, if_true, Store.toNextAwait]
    rw [hstretch] at hs
    refine h.answer hw.sound hcall rfl hinvoked haccepts hs (alike_release ..) ?_ rfl
    rw [hperform, Store.attend, if_pos (by rw [hcancelled]; exact hover)]
    rfl
  · have hstretch : w.store.stretch id (.queued e.slot (.commit e report))
        = .next w.store (.publishing e.slot report) := by
      simp only [Store.stretch, Store.turn, hd, Store.check, hover]
      rfl
    rw [hstretch] at hs
    rw [Store.attend, if_neg (by rw [hcancelled]; exact hover)] at hperform
    -- the edition is live, and so is its document
    have htracked : w.store.Tracked e.slot := by
      refine hw.withdrawn.tracked_of_live hw.rest hlt ?_
      rw [← Bool.not_eq_true]
      intro hclosed
      have hout := hw.sound.staged.commits id e report hinvoked
      rw [hw.sound.isCancelled_edition hout hclosed] at hover
      exact hover rfl
    have hmirrors := h.publishes hcall rfl (Store.dataOf_eq hslotk) hk hs
    refine ⟨_, h.extend_next hw.sound hcall hs hinvoked haccepts hperform hmirrors rfl rfl
      fun j c _ hj => Or.inl ?_⟩
    refine hw.promise_eq (fun i _ hi => ?_) (fun i => ?_) (fun i _ => ?_) hj
    · rw [h.quiet.slot_record, if_neg]
      rintro rfl
      exact hi htracked
    · rfl
    · rw [h.quiet.slot_record]
      split
      · rw [Option.map_map]
        rfl
      · rfl

/-- A call that waits for a document that is closed now has lost it. -/
theorem Steady.expires (hw : Steady w) (hm : Mirrors w s) (hslots : s'.slots = s.slots)
    {j k : Nat} {work : Work} (hj : w.callAt j = some (.queued k work))
    (hwork : work.expires = true) (hlive : s.isCancelled (s.slotScope k) = false)
    (hclosed : s'.isCancelled (s'.slotScope k) = true)
    (hgone : ∀ d, w.store.dataOf k = some d → s'.lookup d.uri = none) :
    ∃ x : Entry, x.id = j ∧ Expires w s s' x := by
  obtain ⟨r, uri, d, hinvoked, hr, hd, rfl⟩ := hw.request_of_expires hj hwork
  obtain ⟨d', hd', huri⟩ := hm.slot hd
  refine ⟨⟨j, r, .failed (.expired d.uri)⟩, rfl, ⟨_, hj, ?_, ?_⟩, hinvoked, accepts_of_work? hr, ?_⟩
  · rw [Store.promise_expires hwork, hlive]
    rfl
  · rw [Store.promise_expires hwork, hclosed, if_pos rfl, hslots, hd', Option.map_some, huri]
  · rw [perform_of_work? hr hwork]
    simp [Store.visit, Store.document?, hgone d hd]

/-- The calls that wait for a document have lost it, if it is closed now and was not before; no
other call sees that documents are closed. -/
theorem Steady.promise_or_expires (hw : Steady w) (hm : Mirrors w s) (hslots : s'.slots = s.slots)
    (hmono : ∀ k, s.isCancelled (s.slotScope k) = true → s'.isCancelled (s'.slotScope k) = true)
    (hgone : ∀ k d, w.store.dataOf k = some d → s.isCancelled (s.slotScope k) = false →
      s'.isCancelled (s'.slotScope k) = true → s'.lookup d.uri = none)
    {j : Nat} {c : Call} (hj : w.callAt j = some c) :
    s'.promise c = s.promise c ∨ ∃ x : Entry, x.id = j ∧ Expires w s s' x := by
  by_cases hlost : ∃ k work, c = .queued k work ∧ work.expires = true ∧
    s.isCancelled (s.slotScope k) = false ∧ s'.isCancelled (s'.slotScope k) = true
  · obtain ⟨k, work, rfl, hwork, hlive, hclosed⟩ := hlost
    exact Or.inr (hw.expires hm hslots hj hwork hlive hclosed fun d hd =>
      hgone k d hd hlive hclosed)
  · refine Or.inl (Store.promise_congr (fun k _ => by rw [hslots]) fun k work hc hwork => ⟨?_, ?_⟩)
    · cases hlive : s.isCancelled (s.slotScope k) with
      | true => exact hmono k hlive
      | false =>
        rw [← Bool.not_eq_true]
        exact fun hclosed => hlost ⟨k, work, hc, hwork, hlive, hclosed⟩
    · rw [hslots]

/-- A document is taken out of the table. -/
theorem Linear.closes (h : Linear lifetime w s order) (hw : Steady w) {uri : Uri} {k : Nat}
    (hcall : w.callAt id = some (.remove uri))
    (hinvoked : Event.invoked id (.close uri) ∈ w.history) (hk : w.store.lookup uri = some k)
    (hs : StretchTaken w w' id (w.store.stretch id (.remove uri))) :
    ∃ s' order', Linear lifetime w' s' order' := by
  obtain ⟨d, hd, hu⟩ := hw.sound.staged.table uri k (Store.mem_table_of_lookup hk)
  obtain ⟨d', hd', _⟩ := h.mirrors.slot hd
  obtain ⟨s', hs'⟩ : ∃ s', s' = Store.cancel
    { s with table := s.table.filter fun entry => entry.1 ≠ uri } (s.slotScope k) := ⟨_, rfl⟩
  have hperform : s.perform (.close uri) = (s', .closed d'.close) := by
    simp [Store.perform, Store.document?, h.mirrors.lookup, hk, hd', hs']
  have hslots : s'.slots = s.slots := by rw [hs']; rfl
  have hscope : ∀ i, s'.slotScope i = s.slotScope i := by
    intro i
    rw [hs']
    rfl
  have hstretch : w.store.stretch id (.remove uri) = .next ((Store.cancel
      { w.store with table := w.store.table.filter fun entry => entry.1 ≠ uri }
        (w.store.slotScope k)).arrive id k) (.queued k .close) := by
    simp [Store.stretch, Store.turn, hk, Store.toNextAwait, Call.isMidway, Call.toGo]
    rfl
  rw [hstretch] at hs
  have hstore := (Option.some.inj hs.store).symm
  have hpub := hs.publishing_iff_next hcall rfl rfl
  have hnext : s'.promise (.queued k .close) = some (.closed d'.close) := by
    rw [Store.promise, hslots, hd', Option.map_some]
  refine ⟨s', h.extend_next hw.sound hcall hs hinvoked trivial hperform ⟨?_, ?_, ?_, ?_, ?_⟩
    rfl hnext fun j c _ hj => hw.promise_or_expires h.mirrors hslots (fun i hi => ?_)
      (fun i di hdi hlive hi => ?_) hj⟩
  · rw [hstore, hs']
    exact h.mirrors.lifetime
  · rw [hstore, hs']
    simp [Store.arrive, Store.cancel, h.mirrors.slotScope, h.mirrors.cancelled]
  · rw [hstore, hs']
    simp [Store.arrive, Store.cancel, h.mirrors.table]
  · rw [hstore, hslots, h.mirrors.length]
    simp [Store.arrive, Store.cancel]
  · intro j dj hdj
    rw [hstore, Store.dataOf_arrive] at hdj
    exact h.mirrors.slots_step hpub (Or.inl ⟨hdj, by rw [hslots]⟩)
  · rw [hscope, hs']
    exact Scope.isCancelled_cons _ hi
  · -- only the document that is closed is cancelled now, and its name is out of the table
    rw [hscope, hs'] at hi
    have hik : i = k := by
      rw [Store.isCancelled, Scope.isCancelled_iff] at hi
      obtain ⟨scope, hmem, hpre⟩ := hi
      rcases List.mem_cons.1 hmem with rfl | hmem
      · rcases Scope.prefix_child_iff.1 hpre with heq | hpre
        · exact (Scope.child_inj.1 heq).symm
        · exact absurd hpre Scope.not_child_prefix
      · have hold : s.isCancelled (s.slotScope i) = true :=
          Scope.isCancelled_iff.2 ⟨scope, hmem, hpre⟩
        rw [hold] at hlive
        cases hlive
    rw [hik, hd] at hdi
    cases hdi
    rw [hs', hu, Store.lookup_eq_none_iff]
    intro i hmem
    exact absurd rfl (of_decide_eq_true (List.mem_filter.1 hmem).2)

/-- The lifetime ends, and all documents are taken out of the table. -/
theorem Linear.shutsDown (h : Linear lifetime w s order) (hw : Steady w)
    (hcall : w.callAt id = some .endLifetime) (hinvoked : Event.invoked id .shutdown ∈ w.history)
    (hs : StretchTaken w w' id (w.store.stretch id .endLifetime)) :
    ∃ s' order', Linear lifetime w' s' order' := by
  obtain ⟨s', hs'⟩ : ∃ s', s' = { s.cancel s.lifetime with table := [] } := ⟨_, rfl⟩
  have hperform : s.perform .shutdown = (s', .drained (s.closeAll (s.table.map Prod.snd))) := by
    rw [hs']
    rfl
  have hslots : s'.slots = s.slots := by rw [hs']; rfl
  have hcloseAll : ∀ ks, s'.closeAll ks = s.closeAll ks := fun ks =>
    Store.closeAll_congr fun k _ => by rw [hslots]
  have hlook : ∀ uri, s'.lookup uri = none := fun uri => by rw [hs']; rfl
  have hothers : ∀ j c, j ≠ id → w.callAt j = some c → s'.promise c = s.promise c ∨
      ∃ x : Entry, x.id = j ∧ Expires w s s' x := by
    intro j c _ hj
    refine hw.promise_or_expires h.mirrors hslots (fun i hi => ?_) (fun _ d _ _ _ => hlook d.uri) hj
    rw [hs']
    exact Scope.isCancelled_cons _ hi
  -- the state after the stretch, but for the queues
  have hmirrors : ∀ u : Store, Alike { w.store.cancel w.store.lifetime with table := [] } u →
      w'.store = u → (∀ j k r, w'.callAt j = some (.publishing k r) ↔
        w.callAt j = some (.publishing k r)) → Mirrors w' s' := by
    rintro u hu rfl hpub
    refine ⟨?_, ?_, ?_, ?_, fun k d hd => ?_⟩
    · rw [hu.lifetime, hs']
      exact h.mirrors.lifetime
    · rw [hu.cancelled, hs']
      simp [Store.cancel, h.mirrors.lifetime, h.mirrors.cancelled]
    · rw [hu.table, hs']
    · rw [hu.length, hslots]
      exact h.mirrors.length
    · rw [hu.data] at hd
      exact h.mirrors.slots_step hpub (Or.inl ⟨hd, by rw [hslots]⟩)
  cases htable : w.store.table with
  | nil =>
    have hstretch : w.store.stretch id .endLifetime
        = .done { w.store.cancel w.store.lifetime with table := [] } (.drained []) := by
      simp [Store.stretch, Store.turn, Store.toNextAwait, Call.isMidway, Call.toGo, Store.cancel,
        htable]
    rw [hstretch] at hs
    have hreply : s.closeAll (s.table.map Prod.snd) = [] := by
      rw [h.mirrors.table, htable]
      rfl
    rw [hreply] at hperform
    exact ⟨s', h.extend_done hw.sound hcall hs hinvoked trivial hperform
      (hmirrors _ (Alike.refl _) (Option.some.inj hs.store).symm
        (hs.publishing_iff_done hcall rfl)) rfl hothers⟩
  | cons entry rest =>
    have hstretch : w.store.stretch id .endLifetime
        = .next (Store.arrive { w.store.cancel w.store.lifetime with table := [] } id entry.2)
          (.collecting entry.2 (rest.map Prod.snd) []) := by
      simp [Store.stretch, Store.turn, Store.toNextAwait, Call.isMidway, Call.toGo, Store.cancel,
        htable]
    rw [hstretch] at hs
    have hnext : s'.promise (.collecting entry.2 (rest.map Prod.snd) [])
        = some (.drained (s.closeAll (s.table.map Prod.snd))) := by
      rw [Store.promise, hcloseAll, h.mirrors.table, htable]
      rfl
    exact ⟨s', h.extend_next hw.sound hcall hs hinvoked trivial hperform
      (hmirrors _ (alike_arrive ..) (Option.some.inj hs.store).symm
        (hs.publishing_iff_next hcall rfl rfl)) rfl hnext hothers⟩

end Extend

/-! ## Runs -/

section Run

variable {lifetime : Scope} {w w' : Workspace} {s : Store} {order : List Entry}

/-- What the surroundings cause gives no call its place. -/
theorem Linear.acted (h : Linear lifetime w s order) (ha : Acted w w')
    (hno : ∀ scope, Event.cancelled scope ∉ w'.history) : Linear lifetime w' s order := by
  -- the calls under way are the old ones, and new ones without a promise
  have hgrow : ∀ es, w'.history = es ++ w.history → (∀ j r, Event.returned j r ∉ es) →
      (∀ j q, Event.invoked j q ∈ es → ∀ q', Event.invoked j q' ∉ w.history) →
      (∀ j c, w'.callAt j = some c → w.callAt j = some c ∨
        (s.promise c = none ∧ ∀ q, Event.invoked j q ∉ w.history)) →
      Mirrors w' s → Linear lifetime w' s order := by
    intro es hh hret hinv hcalls hmirrors
    refine ⟨h.replays, hmirrors, h.nodup, fun x hx => ?_, fun j r hm => ?_, fun j c r hj hp => ?_,
      fun j c hj x hx hxj => ?_, ?_⟩
    · rw [hh]
      exact List.mem_append_right _ (h.invoked x hx)
    · rw [hh, List.mem_append] at hm
      exact h.returned j r (hm.resolve_left (hret j r))
    · rcases hcalls j c hj with hj | ⟨hnone, _⟩
      · exact h.promised j c r hj hp
      · rw [hnone] at hp
        cases hp
    · rcases hcalls j c hj with hj | ⟨_, hnew⟩
      · exact h.counted j c hj x hx hxj
      · exact absurd (hxj ▸ h.invoked x hx) (hnew x.request)
    · refine h.realtime.imp_of_mem fun {a b} ha _ hab r q hp => ?_
      rw [hh] at hp
      exact hab r q (precedes_invoked (fun hm => hinv a.id q hm _ (h.invoked a ha)) hp)
  cases ha with
  | aside hs hc es hes hh =>
    refine hgrow es hh (fun j r hm => ?_) (fun j q hm => ?_) (fun j c hj => Or.inl ?_)
      (h.mirrors.alike ?_ fun j k r => by rw [hc])
    · cases hes _ hm
    · cases hes _ hm
    · rw [← hc, hj]
    · rw [hs]
      exact Alike.refl _
  | invoked id request hnew _ _ hnone hs hc hh =>
    have hcalls : ∀ j c, w'.callAt j = some c →
        w.callAt j = some c ∨ (j = id ∧ c = request.call) := by
      intro j c hj
      rw [hc] at hj
      split at hj
      · exact Or.inr ⟨‹j = id›, (Option.some.inj hj).symm⟩
      · exact Or.inl hj
    refine hgrow [.invoked id request] hh (by simp) (fun j q hm => ?_) (fun j c hj => ?_)
      (h.mirrors.alike ?_ fun j k r => ⟨fun hj => ?_, fun hj => ?_⟩)
    · cases List.mem_singleton.1 hm
      exact hnew
    · rcases hcalls j c hj with hj | ⟨rfl, rfl⟩
      · exact Or.inl hj
      · exact Or.inr ⟨by cases request <;> rfl, hnew⟩
    · rw [hs]
      exact Alike.refl _
    · rcases hcalls j _ hj with hj | ⟨_, hreq⟩
      · exact hj
      · cases request <;> cases hreq
    · rw [hc, if_neg, hj]
      rintro rfl
      rw [hnone] at hj
      cases hj
  | cancelled scope _ _ _ hh => exact absurd (by rw [hh]; exact List.mem_cons_self ..) (hno scope)

/-- A call that looks a document up: it finds none, or comes to its lock. -/
theorem Linear.seeks (h : Linear lifetime w s order) (hw : Steady w) {id : Nat} {r : Request}
    {uri : Uri} {work : Work} (hr : r.work? = some (uri, work)) (hwork : work.expires = true)
    (hcall : w.callAt id = some (.find uri work)) (hinvoked : Event.invoked id r ∈ w.history)
    (hs : StretchTaken w w' id (w.store.stretch id (.find uri work))) :
    ∃ s' order', Linear lifetime w' s' order' := by
  cases hk : w.store.lookup uri with
  | some k => exact ⟨s, order, h.find hw hwork hcall hk hs⟩
  | none =>
    have hstretch : w.store.stretch id (.find uri work)
        = .done w.store (.failed (.expired uri)) := by
      simp [Store.stretch, Store.turn, hk, Store.toNextAwait]
    rw [hstretch] at hs
    refine h.answer hw.sound hcall rfl hinvoked (accepts_of_work? hr) hs (Alike.refl _) ?_ rfl
    simp [perform_of_work? hr hwork, Store.visit, Store.document?, h.mirrors.lookup, hk]

/-- A call that works on a document under its lock. -/
theorem Linear.works (h : Linear lifetime w s order) (hw : Steady w) {id k : Nat} {r : Request}
    {uri : Uri} {work : Work} (hr : r.work? = some (uri, work))
    (hcall : w.callAt id = some (.queued k work))
    (hs : StretchTaken w w' id (w.store.stretch id (.queued k work))) :
    ∃ s' order', Linear lifetime w' s' order' := by
  by_cases hwork : work.expires = true
  · cases hlive : w.store.isCancelled (w.store.slotScope k) with
    | true => exact ⟨s, order, h.expire hwork hcall hlive hs⟩
    | false => exact h.visits hw hwork hcall hlive hs
  · have hclose : work = .close := by
      cases r <;> cases hr <;> first | rfl | exact absurd rfl hwork
    subst hclose
    exact ⟨s, order, h.closeReturns hw.sound hcall hs⟩

/-- The first stretch of a call. -/
theorem Linear.starts (h : Linear lifetime w s order) (hw : Steady w) {id : Nat} {r : Request}
    (hcall : w.callAt id = some r.call) (hinvoked : Event.invoked id r ∈ w.history)
    (hs : StretchTaken w w' id (w.store.stretch id r.call)) :
    ∃ s' order', Linear lifetime w' s' order' := by
  cases r with
  | track uri content version => exact h.opens hw hcall hinvoked hs
  | change uri content version => exact h.seeks hw rfl rfl hcall hinvoked hs
  | version uri => exact h.seeks hw rfl rfl hcall hinvoked hs
  | snapshot uri => exact h.seeks hw rfl rfl hcall hinvoked hs
  | isOpen uri =>
    refine h.answer hw.sound hcall rfl hinvoked trivial hs (Alike.refl _) ?_ rfl
    rw [Store.perform, h.mirrors.lookup]
  | size =>
    refine h.answer hw.sound hcall rfl hinvoked trivial hs (Alike.refl _) ?_ rfl
    rw [Store.perform, h.mirrors.table]
  | commit e report => exact ⟨s, order, h.commitArrives hcall hs⟩
  | shutdown => exact h.shutsDown hw hcall hinvoked hs
  | close uri =>
    cases hk : w.store.lookup uri with
    | some k => exact h.closes hw hcall hinvoked hk hs
    | none =>
      have hstretch : w.store.stretch id (.remove uri)
          = .done w.store (.failed (.expired uri)) := by
        simp [Store.stretch, Store.turn, hk, Store.toNextAwait]
      rw [Request.call, hstretch] at hs
      refine h.answer hw.sound hcall rfl hinvoked trivial hs (Alike.refl _) ?_ rfl
      simp [Store.perform, Store.document?, h.mirrors.lookup, hk]

theorem Linear.stretchTaken (h : Linear lifetime w s order) (hw : Steady w) {id : Nat} {c : Call}
    (hcall : w.callAt id = some c) (hs : StretchTaken w w' id (w.store.stretch id c)) :
    ∃ s' order', Linear lifetime w' s' order' := by
  obtain ⟨r, hinvoked, hserve⟩ := hw.sound.staged.calls id c hcall
  have hrest := hw.rest id c hcall
  cases hserve with
  | start hc =>
    subst hc
    exact h.starts hw hcall hinvoked hs
  | queued hr _ _ => exact h.works hw hr hcall hs
  | committing => exact h.commits hw hcall hinvoked hs
  | publishing => exact ⟨s, order, h.publicationEnds hw.sound hcall hs⟩
  | collecting _ => exact ⟨s, order, h.collect hw.sound hcall hs⟩
  | arrive hr _ _ =>
    -- a call that comes to a lock with such work is midway
    cases r <;> cases hr <;> cases hrest
  | _ => cases hrest

/-- At each moment of a run the calls have an order. -/
theorem Proceeds.linear {w : Workspace} (h : Proceeds (fresh lifetime) w)
    (hno : ∀ scope, Event.cancelled scope ∉ w.history) : ∃ s order, Linear lifetime w s order := by
  induction h with
  | refl => exact ⟨_, _, linear_fresh lifetime⟩
  | @stride w h a ha ih =>
    obtain ⟨hr, hrest⟩ := h.spec
    obtain ⟨_, _, hdone⟩ := stride_spec (hr.sound (sound_fresh lifetime)) hrest ha
    have hgrows : ∃ es, (w.stride a).history = es ++ w.history := by
      rcases hdone with hacted | ⟨id, c, _, _, htaken⟩
      · obtain ⟨es, hes⟩ := hacted.moved.history
        exact ⟨es, hes⟩
      · obtain ⟨es, hes, _⟩ := htaken.events
        exact ⟨es, hes⟩
    obtain ⟨es, hes⟩ := hgrows
    have hbefore : ∀ scope, Event.cancelled scope ∉ w.history := fun scope hm =>
      hno scope (by rw [hes]; exact List.mem_append_right _ hm)
    obtain ⟨s, order, hlinear⟩ := ih hbefore
    rcases hdone with hacted | ⟨id, c, _, hcall, htaken⟩
    · exact ⟨s, order, hlinear.acted hacted hno⟩
    · exact hlinear.stretchTaken (h.steady hbefore) hcall htaken

end Run

end Workspace

end PromqlServer.Document
