import PromqlServer.Proofs.Document.Publications

/-!
The slots that `close` and `shutdown` take out of the table. `close` removes one and cancels its
scope, `shutdown` cancels the lifetime and drains all of them, and either waits for the lock then.
From the moment the call has the lock, the slot is sealed: no `change` and no `commit` gets past its
check any more. Every slot is tracked, about to be closed by a call, or sealed (`Withdrawn`).
-/

namespace PromqlServer.Document

/-- The slots that a call has taken out of the table and not closed yet. -/
def Call.removes : Call → List Nat
  | .cancelSlot k | .arrive k .close | .queued k .close => [k]
  | .collect ks _ => ks
  | .collecting k ks _ => k :: ks
  | _ => []

/-- A shutdown that has emptied the table. -/
def Call.isCollecting : Call → Bool
  | .collect .. | .collecting .. => true
  | _ => false

theorem Call.removes_subset_mentions {c : Call} {k : Nat} (h : k ∈ c.removes) : k ∈ c.mentions := by
  unfold removes at h
  split at h <;> first | exact h | cases h

theorem Call.removes_of_isBrief {c : Call} (h : c.isBrief = true) : c.removes = [] := by
  cases c <;> first | rfl | cases h

/-- Nothing is closed that was only looked up. -/
theorem Serves.ne_find_close {s : Store} {r : Request} {c : Call} (h : Serves s r c) (uri : Uri) :
    c ≠ .find uri .close := by
  rintro rfl
  cases h with
  | start hc => cases r <;> cases hc

/-- A call takes out what it had taken out before, or what it finds in the table. -/
theorem Turned.removes_inv {s s' : Store} {id : Nat} {c c' : Call}
    (h : Turned s id c (.next s' c')) (hc : ∀ uri, c ≠ .find uri .close) {k : Nat}
    (hk : k ∈ c'.removes) :
    k ∈ c.removes ∨
    (∃ uri, c = .remove uri ∧ s.lookup uri = some k ∧ c' = .cancelSlot k ∧
      s' = { s with table := s.table.filter fun entry => entry.1 ≠ uri }) ∨
    (c = .drain ∧ s' = { s with table := [] }) := by
  cases h with
  | removed hlook =>
    cases List.mem_singleton.1 hk
    exact Or.inr (Or.inl ⟨_, rfl, hlook, rfl, rfl⟩)
  | drained => exact Or.inr (Or.inr ⟨rfl, rfl⟩)
  | slotCancelled => exact Or.inl hk
  | @arrived j work =>
    cases work with
    | close => exact Or.inl hk
    | _ => cases hk
  | @found uri work j hlook =>
    cases work with
    | close => exact absurd rfl (hc uri)
    | _ => cases hk
  | joined => exact Or.inl hk
  | taken => exact Or.inl (List.mem_cons_of_mem _ hk)
  | _ => cases hk

/-- A call goes on to close what it has taken out, until it has the lock. -/
theorem Turned.removes_next {s s' : Store} {id : Nat} {c : Call} {t : Turn} (h : Turned s id c t)
    (hs : t.store? = some s') {k : Nat} (hk : k ∈ c.removes) :
    (∃ c', t.call? = some c' ∧ k ∈ c'.removes) ∨
    ((s.queueOf k).head? = some id ∧ c ≠ .cancelSlot k ∧
      ∀ c', t.call? = some c' → c'.place? = none) := by
  cases h with
  | blocked => cases hs
  | answered hbrief => rw [Call.removes_of_isBrief hbrief] at hk; cases hk
  | slotCancelled => exact Or.inl ⟨_, rfl, hk⟩
  | @arrived j work =>
    cases work with
    | close => exact Or.inl ⟨_, rfl, hk⟩
    | _ => cases hk
  | @left j d work reply hd =>
    cases work with
    | close =>
      cases List.mem_singleton.1 hk
      exact Or.inr ⟨Store.head_of_held hd, nofun, nofun⟩
    | _ => cases hk
  | joined => exact Or.inl ⟨_, rfl, hk⟩
  | taken hd =>
    rcases List.mem_cons.1 hk with rfl | hk
    · exact Or.inr ⟨Store.head_of_held hd, nofun, by rintro _ ⟨⟩; rfl⟩
    · exact Or.inl ⟨_, rfl, hk⟩
  | _ => cases hk

/-- A call past the check was past it before, or has found its document in order. -/
theorem Turned.holdsLock_inv {s s' : Store} {id k : Nat} {c c' : Call}
    (h : Turned s id c (.next s' c')) (hp : c'.place? = some k) (hh : c'.holdsLock = true) :
    (c.place? = some k ∧ c.holdsLock = true) ∨ s.isCancelled (s.slotScope k) = false ∨
      ∃ e r, c = .queued k (.commit e r) ∧ s.isCancelled e.scope = false := by
  cases h with
  | admitted _ hlive =>
    cases hp
    exact Or.inr (Or.inl hlive)
  | passed _ hlive =>
    cases hp
    exact Or.inr (Or.inr ⟨_, _, rfl, hlive⟩)
  | superseded => exact Or.inl ⟨hp, rfl⟩
  | began => exact Or.inl ⟨hp, rfl⟩
  | _ => cases hh

/-- What a shutdown returns, it returns when it has closed all. -/
theorem Turned.drained_inv {s s' : Store} {id : Nat} {c : Call} {ds : List Closed}
    (h : Turned s id c (.done s' (.drained ds))) : c = .collect [] ds ∧ s' = s := by
  cases h with
  | collected => exact ⟨rfl, rfl⟩
  | answered _ _ hr => cases hr
  | @left k d work reply hd hcheck =>
    cases work with
    | close => cases hcheck
    | change content version =>
      simp only [Store.check] at hcheck
      split at hcheck
      · cases hcheck
      · split at hcheck <;> cases hcheck
    | version => simp only [Store.check] at hcheck; split at hcheck <;> cases hcheck
    | snapshot => simp only [Store.check] at hcheck; split at hcheck <;> cases hcheck
    | commit e r => simp only [Store.check] at hcheck; split at hcheck <;> cases hcheck

/-- What a close returns, it returns under the lock of the document that it has taken out. -/
theorem Turned.closed_inv {s s' : Store} {id : Nat} {c : Call} {closed : Closed}
    (h : Turned s id c (.done s' (.closed closed))) :
    ∃ k d, c = .queued k .close ∧ s.slots[k]? = some d ∧ closed = d.close ∧ s' = s.release k := by
  cases h with
  | answered _ _ hr => cases hr
  | @left k d work reply hd hcheck =>
    cases work with
    | close =>
      cases hcheck
      exact ⟨k, d, rfl, (Store.held_eq_some_iff.1 hd).1, rfl, rfl⟩
    | change content version =>
      simp only [Store.check] at hcheck
      split at hcheck
      · cases hcheck
      · split at hcheck <;> cases hcheck
    | version => simp only [Store.check] at hcheck; split at hcheck <;> cases hcheck
    | snapshot => simp only [Store.check] at hcheck; split at hcheck <;> cases hcheck
    | commit e r => simp only [Store.check] at hcheck; split at hcheck <;> cases hcheck

/-- The document is in the table. -/
def Store.Tracked (s : Store) (k : Nat) : Prop := ∃ uri, (uri, k) ∈ s.table

namespace Workspace

/-- What is cancelled stays so. -/
theorem Moved.isCancelled {w w' : Workspace} (h : Moved w w') {scope : Scope}
    (hc : w.store.isCancelled scope = true) : w'.store.isCancelled scope = true := by
  cases h with
  | aside hs => rw [hs]; exact hc
  | invoked _ _ _ _ _ _ hs => rw [hs]; exact hc
  | cancelled t _ hs => rw [hs]; exact Scope.isCancelled_cons t hc
  | turned id c t _ ht hs =>
    cases ht.cancelStep hs with
    | same hsame =>
      unfold Store.isCancelled
      rw [hsame]
      exact hc
    | slot _ _ hs' => rw [hs']; exact Scope.isCancelled_cons _ hc
    | edition _ _ _ _ _ _ hs' => rw [hs']; exact Scope.isCancelled_cons _ hc
    | lifetime _ hs' => rw [hs']; exact Scope.isCancelled_cons _ hc

theorem Moved.slotScope {w w' : Workspace} (h : Moved w w') (k : Nat) :
    w'.store.slotScope k = w.store.slotScope k := by
  unfold Store.slotScope
  rw [h.lifetime]

theorem Moved.length_le {w w' : Workspace} (h : Moved w w') :
    w.store.slots.length ≤ w'.store.slots.length := by
  cases h with
  | aside hs => exact Nat.le_of_eq (by rw [hs])
  | invoked _ _ _ _ _ _ hs => exact Nat.le_of_eq (by rw [hs])
  | cancelled t _ hs => exact Nat.le_of_eq (by rw [hs]; rfl)
  | turned id c t _ ht hs => exact (ht.dataStep hs).length_le

theorem Moved.dataOf_uri {w w' : Workspace} (h : Moved w w') {k : Nat} {d : Slot}
    (hd : w.store.dataOf k = some d) : ∃ d', w'.store.dataOf k = some d' ∧ d'.uri = d.uri := by
  cases h with
  | aside hs => exact ⟨d, by rw [hs, hd], rfl⟩
  | invoked _ _ _ _ _ _ hs => exact ⟨d, by rw [hs, hd], rfl⟩
  | cancelled t _ hs => exact ⟨d, by rw [hs, Store.dataOf_cancel, hd], rfl⟩
  | turned id c t _ ht hs => exact (ht.dataStep hs).dataOf_uri hd

/-- A document comes into the table only when it is opened. -/
theorem Moved.tracked {w w' : Workspace} (h : Moved w w') {k : Nat} (hk : w'.store.Tracked k)
    (hlt : k < w.store.slots.length) : w.store.Tracked k := by
  obtain ⟨uri, hmem⟩ := hk
  cases h with
  | aside hs => exact ⟨uri, hs ▸ hmem⟩
  | invoked _ _ _ _ _ _ hs => exact ⟨uri, hs ▸ hmem⟩
  | cancelled t _ hs =>
    rw [hs] at hmem
    exact ⟨uri, hmem⟩
  | turned id c t _ ht hs =>
    cases ht.tableStep hs with
    | same htable => exact ⟨uri, htable ▸ hmem⟩
    | tracked u _ _ _ hs' =>
      rw [hs'] at hmem
      rcases List.mem_append.1 hmem with hmem | hmem
      · exact ⟨uri, hmem⟩
      · cases List.mem_singleton.1 hmem
        exact absurd hlt (Nat.lt_irrefl _)
    | removed _ _ _ _ hs' =>
      rw [hs'] at hmem
      exact ⟨uri, (List.mem_filter.1 hmem).1⟩
    | drained _ hs' =>
      rw [hs'] at hmem
      cases hmem

/-! ## Sealed documents -/

/-- The scope of the document is cancelled and no call is past its check. -/
def Sealed (w : Workspace) (k : Nat) : Prop :=
  w.store.isCancelled (w.store.slotScope k) = true ∧
    ∀ id c, w.callAt id = some c → c.place? = some k → c.holdsLock = false

/-- An edition is cancelled with its document. -/
theorem Sound.isCancelled_edition {w : Workspace} (h : Sound w) {e : Edition} (he : w.HandedOut e)
    (hc : w.store.isCancelled (w.store.slotScope e.slot) = true) :
    w.store.isCancelled e.scope = true := by
  obtain ⟨d, n, _, hscope, _⟩ := h.dated.edition e he
  rw [hscope]
  exact Scope.isCancelled_child n hc

theorem Sealed.step {w w' : Workspace} {k : Nat} (h : Sealed w k) (hw : Sound w) (hm : Moved w w') :
    Sealed w' k := by
  refine ⟨by rw [hm.slotScope]; exact hm.isCancelled h.1, fun j c' hj hp => ?_⟩
  cases hm with
  | aside _ hc => exact h.2 j c' (by rw [← hc]; exact hj) hp
  | cancelled _ _ _ hc => exact h.2 j c' (by rw [← hc]; exact hj) hp
  | invoked id request _ _ _ _ _ hc =>
    rw [hc] at hj
    split at hj
    · cases hj
      cases request <;> rfl
    · exact h.2 j c' hj hp
  | turned id c t hcall ht hs hc =>
    rw [hc] at hj
    split at hj
    · cases t with
      | blocked => cases hj
      | done s r => cases hj
      | next s c'' =>
        cases hj
        cases hh : c'.holdsLock with
        | false => rfl
        | true =>
          obtain ⟨hp', hh'⟩ | hlive | ⟨e, r, rfl, hlive⟩ := ht.holdsLock_inv hp hh
          · rw [h.2 id c hcall hp'] at hh'
            cases hh'
          · rw [h.1] at hlive
            cases hlive
          · -- a commit that waits here is one for an edition of this document
            obtain ⟨q, hq, hserve⟩ := hw.staged.calls id _ hcall
            obtain ⟨rfl, hslot⟩ := hserve.commit_inv
            have hout := hw.staged.commits id e r hq
            rw [hw.isCancelled_edition hout (by rw [← hslot]; exact h.1)] at hlive
            cases hlive
    · exact h.2 j c' hj hp

/-- Once the call that closes a document has its lock, the document is sealed. -/
theorem Sound.sealed_of_head {w w' : Workspace} (h : Sound w) {id k : Nat} {t : Turn}
    (hm : Moved w w') (hhead : (w.store.queueOf k).head? = some id)
    (hc : ∀ j, w'.callAt j = if j = id then t.call? else w.callAt j)
    (hnext : ∀ c', t.call? = some c' → c'.place? = none)
    (hcancelled : w.store.isCancelled (w.store.slotScope k) = true) : Sealed w' k := by
  refine ⟨by rw [hm.slotScope]; exact hm.isCancelled hcancelled, fun j c' hj hp => ?_⟩
  rw [hc] at hj
  split at hj
  · rw [hnext c' hj] at hp
    cases hp
  · rename_i hne
    cases hh : c'.holdsLock with
    | false => rfl
    | true =>
      have hheadj := h.locked.head j c' k hj hp hh
      rw [hhead] at hheadj
      exact absurd (Option.some.inj hheadj).symm hne

/-! ## Every document is accounted for -/

/-- The lifetime is over and no document is tracked. -/
def Emptied (w : Workspace) : Prop :=
  w.store.isCancelled w.store.lifetime = true ∧ w.store.table = []

structure Withdrawn (w : Workspace) : Prop where
  unique : ∀ uri k k', (uri, k) ∈ w.store.table → (uri, k') ∈ w.store.table → k = k'
  untracked : ∀ id c k, w.callAt id = some c → k ∈ c.removes → ¬ w.store.Tracked k
  doomed : ∀ id c k, w.callAt id = some c → k ∈ c.removes →
    c = .cancelSlot k ∨ w.store.isCancelled (w.store.slotScope k) = true
  ending : ∀ id, w.callAt id = some .drain → w.store.isCancelled w.store.lifetime = true
  emptied : ∀ id c, w.callAt id = some c → c.isCollecting = true → Emptied w
  drained : ∀ id ds, Event.returned id (.drained ds) ∈ w.history → Emptied w
  kept : ∀ k, k < w.store.slots.length → w.store.Tracked k ∨
    (∃ id c, w.callAt id = some c ∧ k ∈ c.removes) ∨ Sealed w k

theorem withdrawn_fresh (lifetime : Scope) : Withdrawn (fresh lifetime) where
  unique := by simp [fresh]
  untracked := by simp [fresh, callAt, task?]
  doomed := by simp [fresh, callAt, task?]
  ending := by simp [fresh, callAt, task?]
  emptied := by simp [fresh, callAt, task?]
  drained := by simp [fresh]
  kept := by simp [fresh]

/-- No document is opened after the end of the lifetime. -/
theorem Emptied.step {w w' : Workspace} (h : Emptied w) (hm : Moved w w') : Emptied w' := by
  refine ⟨by rw [hm.lifetime]; exact hm.isCancelled h.1, ?_⟩
  cases hm with
  | aside hs => rw [hs]; exact h.2
  | invoked _ _ _ _ _ _ hs => rw [hs]; exact h.2
  | cancelled t _ hs => rw [hs]; exact h.2
  | turned id c t _ ht hs =>
    cases ht.tableStep hs with
    | same htable => rw [htable]; exact h.2
    | removed _ _ _ _ hs' => rw [hs', h.2]; rfl
    | drained _ hs' => rw [hs']
    | tracked uri content version _ hs' hc =>
      subst hc
      cases ht.dataStep hs with
      | same _ hr =>
        cases ht with
        | blocked => cases hs
        | answered => rw [← Option.some.inj hs]; exact h.2
        | tracked => exact absurd rfl (hr _ _)
      | tracked _ _ _ _ _ hlive =>
        rw [h.1] at hlive
        cases hlive
      | replaced _ _ _ _ hc' => cases hc'
      | recorded _ _ hc' => cases hc'

theorem Withdrawn.drained_step {w w' : Workspace} (h : Withdrawn w) (hm : Moved w w') {id : Nat}
    {ds : List Closed} (hret : Event.returned id (.drained ds) ∈ w'.history) : Emptied w' := by
  rcases hm.mem_news rfl hret with hret | hret
  · exact (h.drained id ds hret).step hm
  · cases hret with
    | returned _ c s _ hc _ ht =>
      obtain ⟨rfl, _⟩ := ht.drained_inv
      exact (h.emptied id _ hc rfl).step hm

/-- A call goes on to close what it has taken out, until the document is sealed. -/
theorem Withdrawn.closes_step {w w' : Workspace} (h : Withdrawn w) (hw : Sound w) (hm : Moved w w')
    {id k : Nat} {c : Call} (hcall : w.callAt id = some c) (hk : k ∈ c.removes) :
    (∃ c', w'.callAt id = some c' ∧ k ∈ c'.removes) ∨ Sealed w' k := by
  have hm' := hm
  cases hm with
  | aside _ hc => exact Or.inl ⟨c, by rw [hc, hcall], hk⟩
  | cancelled _ _ _ hc => exact Or.inl ⟨c, by rw [hc, hcall], hk⟩
  | invoked i request _ _ _ hnone _ hc =>
    have hne : id ≠ i := fun hi => by rw [hi, hnone] at hcall; cases hcall
    exact Or.inl ⟨c, by rw [hc, if_neg hne, hcall], hk⟩
  | turned i ci t hci ht hs hc =>
    by_cases hi : id = i
    · subst hi
      rw [hcall] at hci
      cases hci
      obtain ⟨c', hc', hmem'⟩ | ⟨hhead, hne, hnext⟩ := ht.removes_next hs hk
      · exact Or.inl ⟨c', by rw [hc, if_pos rfl, hc'], hmem'⟩
      · have hcancelled := (h.doomed id c k hcall hk).resolve_left hne
        exact Or.inr (hw.sealed_of_head hm' hhead hc hnext hcancelled)
    · exact Or.inl ⟨c, by rw [hc, if_neg hi, hcall], hk⟩

/-- A step that leaves the table and the slots, and starts no removal. -/
theorem Withdrawn.of_same {w w' : Workspace} (h : Withdrawn w) (hw : Sound w) (hm : Moved w w')
    (htable : w'.store.table = w.store.table)
    (hlen : w'.store.slots.length = w.store.slots.length)
    (hcall : ∀ id c, w'.callAt id = some c → w.callAt id = some c ∨
      (c.removes = [] ∧ c.isCollecting = false ∧ c ≠ .drain)) : Withdrawn w' where
  unique := by rw [htable]; exact h.unique
  untracked := by
    intro id c k hid hk
    rcases hcall id c hid with hid | ⟨hnil, _⟩
    · unfold Store.Tracked
      rw [htable]
      exact h.untracked id c k hid hk
    · rw [hnil] at hk
      cases hk
  doomed := by
    intro id c k hid hk
    rcases hcall id c hid with hid | ⟨hnil, _⟩
    · rw [hm.slotScope]
      exact (h.doomed id c k hid hk).imp_right hm.isCancelled
    · rw [hnil] at hk
      cases hk
  ending := by
    intro id hid
    rcases hcall id _ hid with hid | ⟨_, _, hne⟩
    · rw [hm.lifetime]
      exact hm.isCancelled (h.ending id hid)
    · exact absurd rfl hne
  emptied := by
    intro id c hid hc
    rcases hcall id c hid with hid | ⟨_, hne, _⟩
    · exact (h.emptied id c hid hc).step hm
    · rw [hne] at hc
      cases hc
  drained := fun _ _ hret => h.drained_step hm hret
  kept := by
    intro k hk
    rw [hlen] at hk
    rcases h.kept k hk with htr | ⟨id, c, hid, hmem⟩ | hseal
    · exact Or.inl (by unfold Store.Tracked; rw [htable]; exact htr)
    · refine Or.inr ((h.closes_step hw hm hid hmem).imp_left fun ⟨c', hc', hmem'⟩ => ?_)
      exact ⟨id, c', hc', hmem'⟩
    · exact Or.inr (Or.inr (hseal.step hw hm))

theorem Withdrawn.unique_turned {w w' : Workspace} (h : Withdrawn w) {id : Nat} {c : Call}
    {t : Turn} (ht : Turned w.store id c t) (hs : t.store? = some w'.store) (uri : Uri) (k k' : Nat)
    (hk : (uri, k) ∈ w'.store.table) (hk' : (uri, k') ∈ w'.store.table) : k = k' := by
  cases ht.tableStep hs with
  | same htable =>
    rw [htable] at hk hk'
    exact h.unique uri k k' hk hk'
  | tracked u content version hnone hs' _ =>
    rw [hs'] at hk hk'
    have hnew := Store.lookup_eq_none_iff.1 hnone
    rcases List.mem_append.1 hk with hmem | hmem <;> rcases List.mem_append.1 hk' with hmem' | hmem'
    · exact h.unique uri k k' hmem hmem'
    · cases List.mem_singleton.1 hmem'
      exact absurd hmem (hnew k)
    · cases List.mem_singleton.1 hmem
      exact absurd hmem' (hnew k')
    · cases List.mem_singleton.1 hmem
      cases List.mem_singleton.1 hmem'
      rfl
  | removed u j _ _ hs' =>
    rw [hs'] at hk hk'
    exact h.unique uri k k' (List.mem_filter.1 hk).1 (List.mem_filter.1 hk').1
  | drained _ hs' =>
    rw [hs'] at hk
    cases hk

/-- What a turn has just taken out of the table is no longer there, and its scope is cancelled or
will be by the next turn. -/
theorem Withdrawn.removes_turned {w w' : Workspace} (h : Withdrawn w) (hw : Sound w)
    (hm : Moved w w') {id k : Nat} {c c' : Call} (hcall : w.callAt id = some c)
    (ht : Turned w.store id c (.next w'.store c')) (hk : k ∈ c'.removes) :
    ¬ w'.store.Tracked k ∧
      (c' = .cancelSlot k ∨ w'.store.isCancelled (w'.store.slotScope k) = true) := by
  obtain ⟨r, _, hserve⟩ := hw.staged.calls id c hcall
  obtain hold | ⟨uri, rfl, hlook, hc', hs⟩ | ⟨rfl, hs⟩ :=
    ht.removes_inv (hserve.ne_find_close) hk
  · have hlt := hw.staged.mentions hcall k (Call.removes_subset_mentions hold)
    refine ⟨fun htr => h.untracked id c k hcall hold (hm.tracked htr hlt), ?_⟩
    rcases h.doomed id c k hcall hold with rfl | hcancelled
    · generalize hstore : w'.store = s' at ht
      cases ht with
      | slotCancelled => exact Or.inr (Scope.isCancelled_cons_self _ _)
    · exact Or.inr (by rw [hm.slotScope]; exact hm.isCancelled hcancelled)
  · refine ⟨?_, Or.inl hc'⟩
    rintro ⟨u, hmem⟩
    rw [hs] at hmem
    obtain ⟨hmem, hne⟩ := List.mem_filter.1 hmem
    obtain ⟨d, hd, hu⟩ := hw.staged.table u k hmem
    obtain ⟨d', hd', hu'⟩ := hw.staged.table uri k (Store.mem_table_of_lookup hlook)
    rw [hd] at hd'
    cases hd'
    rw [← hu, ← hu'] at hne
    simp at hne
  · refine ⟨?_, Or.inr ?_⟩
    · rintro ⟨u, hmem⟩
      rw [hs] at hmem
      cases hmem
    · rw [hm.slotScope]
      exact hm.isCancelled (Scope.isCancelled_child k (h.ending id hcall))

theorem Withdrawn.kept_turned {w w' : Workspace} (h : Withdrawn w) (hw : Sound w) (hm : Moved w w')
    {id : Nat} {c : Call} {t : Turn} (ht : Turned w.store id c t) (hs : t.store? = some w'.store)
    (hself : w'.callAt id = t.call?) {k : Nat} (hk : k < w'.store.slots.length) :
    w'.store.Tracked k ∨
      (∃ id c, w'.callAt id = some c ∧ k ∈ c.removes) ∨ Sealed w' k := by
  by_cases hlt : k < w.store.slots.length
  · rcases h.kept k hlt with ⟨uri, hmem⟩ | ⟨j, cj, hj, hmem⟩ | hseal
    · cases ht.tableStep hs with
      | same htable => exact Or.inl ⟨uri, by rw [htable]; exact hmem⟩
      | tracked _ _ _ _ hs' =>
        exact Or.inl ⟨uri, by rw [hs']; exact List.mem_append_left _ hmem⟩
      | removed u j hlook _ hs' ha =>
        by_cases hu : uri = u
        · have hkj := h.unique uri k j hmem (by rw [hu]; exact Store.mem_table_of_lookup hlook)
          refine Or.inr (Or.inl ⟨id, _, hself.trans ha, ?_⟩)
          rw [hkj]
          exact List.mem_singleton.2 rfl
        · exact Or.inl ⟨uri, by rw [hs']; exact List.mem_filter.2 ⟨hmem, by simpa using hu⟩⟩
      | drained _ _ ha =>
        exact Or.inr (Or.inl ⟨id, _, hself.trans ha, List.mem_map.2 ⟨(uri, k), hmem, rfl⟩⟩)
    · refine Or.inr ((h.closes_step hw hm hj hmem).imp_left fun ⟨c', hc', hmem'⟩ => ?_)
      exact ⟨j, c', hc', hmem'⟩
    · exact Or.inr (Or.inr (hseal.step hw hm))
  · -- a new document, which is tracked
    cases ht.dataStep hs with
    | same hd =>
      refine absurd ?_ hlt
      rw [← Store.dataOf_isSome_iff, ← hd, Store.dataOf_isSome_iff]
      exact hk
    | tracked uri content version _ _ _ hs' =>
      have hlen : k = w.store.slots.length := by
        rw [hs'] at hk
        simp only [Store.withSlot, List.length_append, List.length_singleton] at hk
        omega
      refine Or.inl ⟨uri, ?_⟩
      rw [hs', hlen]
      exact List.mem_append_right _ (List.mem_singleton.2 rfl)
    | replaced j d content version _ hd hs' =>
      rw [hs', Store.replace] at hk
      simp only [Store.release, Store.length_modifySlot] at hk
      exact absurd hk hlt
    | recorded j report _ hs' =>
      rw [hs', Store.record] at hk
      simp only [Store.release, Store.length_modifySlot] at hk
      exact absurd hk hlt

theorem Withdrawn.turned {w w' : Workspace} (h : Withdrawn w) (hw : Sound w) (hm : Moved w w')
    {id : Nat} {c : Call} {t : Turn} (hcall : w.callAt id = some c) (ht : Turned w.store id c t)
    (hs : t.store? = some w'.store)
    (hc : ∀ j, w'.callAt j = if j = id then t.call? else w.callAt j) : Withdrawn w' := by
  have hnext : ∀ {c'}, w'.callAt id = some c' → Turned w.store id c (.next w'.store c') := by
    intro c' hid
    rw [hc, if_pos rfl] at hid
    cases t with
    | blocked => cases hid
    | done s r => cases hid
    | next s c'' =>
      cases hid
      cases hs
      exact ht
  have hother : ∀ {j}, j ≠ id → w'.callAt j = w.callAt j := fun hj => by rw [hc, if_neg hj]
  have hremoves : ∀ j c' k, w'.callAt j = some c' → k ∈ c'.removes → ¬ w'.store.Tracked k ∧
      (c' = .cancelSlot k ∨ w'.store.isCancelled (w'.store.slotScope k) = true) := by
    intro j c' k hj hk
    by_cases hji : j = id
    · subst hji
      exact h.removes_turned hw hm hcall (hnext hj) hk
    · rw [hother hji] at hj
      have hlt := hw.staged.mentions hj k (Call.removes_subset_mentions hk)
      refine ⟨fun htr => h.untracked j c' k hj hk (hm.tracked htr hlt), ?_⟩
      rw [hm.slotScope]
      exact (h.doomed j c' k hj hk).imp_right hm.isCancelled
  refine ⟨h.unique_turned ht hs, fun j c' k hj hk => (hremoves j c' k hj hk).1,
    fun j c' k hj hk => (hremoves j c' k hj hk).2, fun j hj => ?_, fun j c' hj hcoll => ?_,
    fun _ _ hret => h.drained_step hm hret,
    fun k hk => h.kept_turned hw hm ht hs (by rw [hc, if_pos rfl]) hk⟩
  · by_cases hji : j = id
    · subst hji
      have hturn := hnext hj
      rw [hm.lifetime]
      generalize hstore : w'.store = s' at hturn
      cases hturn with
      | lifetimeEnded => exact Scope.isCancelled_cons_self _ _
    · rw [hother hji] at hj
      rw [hm.lifetime]
      exact hm.isCancelled (h.ending j hj)
  · by_cases hji : j = id
    · subst hji
      have hturn := hnext hj
      generalize hstore : w'.store = s' at hturn
      cases hturn with
      | drained =>
        refine ⟨?_, by rw [hstore]⟩
        rw [hm.lifetime]
        exact hm.isCancelled (h.ending j hcall)
      | joined => exact (h.emptied j _ hcall rfl).step hm
      | taken => exact (h.emptied j _ hcall rfl).step hm
      | _ => cases hcoll
    · rw [hother hji] at hj
      exact (h.emptied j c' hj hcoll).step hm

theorem Withdrawn.step {w w' : Workspace} (h : Withdrawn w) (hw : Sound w) (hm : Moved w w') :
    Withdrawn w' := by
  have hm' := hm
  cases hm with
  | aside hs hc =>
    exact h.of_same hw hm' (by rw [hs]) (by rw [hs])
      (fun id c hid => Or.inl (by rw [← hc, hid]))
  | cancelled scope _ hs hc =>
    exact h.of_same hw hm' (by rw [hs]; rfl) (by rw [hs]; rfl)
      (fun id c hid => Or.inl (by rw [← hc, hid]))
  | invoked id request _ _ _ hnone hs hc =>
    refine h.of_same hw hm' (by rw [hs]) (by rw [hs]) (fun j c hj => ?_)
    rw [hc] at hj
    split at hj
    · cases hj
      refine Or.inr ?_
      cases request <;> exact ⟨rfl, rfl, nofun⟩
    · exact Or.inl hj
  | turned id c t hcall ht hs hc => exact h.turned hw hm' hcall ht hs hc

theorem Reaches.withdrawn {lifetime : Scope} {w : Workspace} (hr : Reaches (fresh lifetime) w) :
    Withdrawn w :=
  hr.keeps (sound_fresh lifetime) (withdrawn_fresh lifetime) fun _ _ hu _ hm h => h.step hu hm

end Workspace

end PromqlServer.Document
