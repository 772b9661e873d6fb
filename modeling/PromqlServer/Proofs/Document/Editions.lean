import PromqlServer.Proofs.Document.Calls

/-!
The version contexts of a slot, here its editions. Each is at one revision of the slot: the context
at the current revision has the version and the content of the slot, and the earlier ones have
smaller versions. A `change` under the lock is newer than the slot, and a `commit` past its check is
for the version that the slot has.
-/

namespace PromqlServer.Document

/-! ## Calls past the check -/

theorem Turned.supersede_inv {s s' : Store} {id k : Nat} {c : Call} {content : String} {v : Int}
    (h : Turned s id c (.next s' (.supersede k content v))) :
    ∃ d, s.slots[k]? = some d ∧ d.version < v := by
  cases h with
  | admitted hd _ hlt => exact ⟨_, (Store.held_eq_some_iff.1 hd).1, hlt⟩

theorem Turned.replace_inv {s s' : Store} {id k : Nat} {c : Call} {content : String} {v : Int}
    (h : Turned s id c (.next s' (.replace k content v))) : c = .supersede k content v := by
  cases h with
  | superseded => rfl

theorem Turned.publish_inv {s s' : Store} {id k : Nat} {c : Call} {r : Report}
    (h : Turned s id c (.next s' (.publish k r))) :
    ∃ d e, c = .queued k (.commit e r) ∧ s.slots[k]? = some d ∧ d.version = e.version ∧
      s.isCancelled e.scope = false := by
  cases h with
  | passed hd hlive hv => exact ⟨_, _, rfl, (Store.held_eq_some_iff.1 hd).1, hv, hlive⟩

theorem Turned.publishing_inv {s s' : Store} {id k : Nat} {c : Call} {r : Report}
    (h : Turned s id c (.next s' (.publishing k r))) : c = .publish k r := by
  cases h with
  | began => rfl

theorem Turned.dataOf_next {s s' : Store} {id : Nat} {c c' : Call}
    (h : Turned s id c (.next s' c')) (j : Nat) : s'.dataOf j = s.dataOf j := by
  cases h.dataStep rfl with
  | same hd => exact hd j
  | tracked _ _ _ _ _ _ _ ht => cases ht
  | replaced _ _ _ _ _ _ _ ht => cases ht
  | recorded k report hc =>
    subst hc
    cases h

/-- A call that waits with a commit waits at the slot of its edition. -/
theorem Serves.commit_inv {s : Store} {r : Request} {k : Nat} {e : Edition} {report : Report}
    (h : Serves s r (.queued k (.commit e report))) : r = .commit e report ∧ k = e.slot := by
  cases h with
  | start hc => cases r <;> cases hc
  | queued hr => cases r <;> cases hr
  | committing => exact ⟨rfl, rfl⟩

namespace Workspace

/-- An edition is at the revision `n` of a slot with the data `d`. -/
def AtRevision (s : Store) (e : Edition) (d : Slot) (n : Nat) : Prop :=
  e.scope = s.editionScope e.slot n ∧
    ((n < d.revision ∧ e.version < d.version) ∨
      (n = d.revision ∧ e.version = d.version ∧ e.content = d.content))

structure Dated (w : Workspace) : Prop where
  edition : ∀ e, w.HandedOut e → ∃ d n, w.store.dataOf e.slot = some d ∧ AtRevision w.store e d n
  newer : ∀ id k content v, w.callAt id = some (.supersede k content v) ∨
    w.callAt id = some (.replace k content v) → ∃ d, w.store.dataOf k = some d ∧ d.version < v
  publishes : ∀ id k r, w.callAt id = some (.publish k r) ∨ w.callAt id = some (.publishing k r) →
    ∃ e d, Event.invoked id (.commit e r) ∈ w.history ∧ e.slot = k ∧
      w.store.dataOf k = some d ∧ d.version = e.version

theorem dated_fresh (lifetime : Scope) : Dated (fresh lifetime) where
  edition := by simp [fresh, HandedOut]
  newer := by simp [fresh, callAt, task?]
  publishes := by simp [fresh, callAt, task?]

theorem AtRevision.of_lifetime {s s' : Store} {e : Edition} {d : Slot} {n : Nat}
    (h : AtRevision s e d n) (hl : s'.lifetime = s.lifetime) : AtRevision s' e d n := by
  unfold AtRevision Store.editionScope Store.slotScope at *
  rw [hl]
  exact h

/-- A step that leaves the data and the editions as they are, and brings no call past a check. -/
theorem Dated.of_same {w w' : Workspace} (h : Dated w) (hm : Moved w w')
    (hd : ∀ k, w'.store.dataOf k = w.store.dataOf k)
    (he : ∀ e, w'.HandedOut e ↔ w.HandedOut e)
    (hc : ∀ id c, w'.callAt id = some c → c.holdsLock = true → w.callAt id = some c) :
    Dated w' where
  edition := by
    intro e hout
    obtain ⟨d, n, hde, hrev⟩ := h.edition e ((he e).1 hout)
    exact ⟨d, n, by rw [hd, hde], hrev.of_lifetime hm.lifetime⟩
  newer := by
    intro id k content v hcall
    rw [hd]
    exact h.newer id k content v (hcall.imp (fun h' => hc id _ h' rfl) (fun h' => hc id _ h' rfl))
  publishes := by
    intro id k r hcall
    obtain ⟨e, d, hinv, hslot, hdk, hv⟩ := h.publishes id k r
      (hcall.imp (fun h' => hc id _ h' rfl) (fun h' => hc id _ h' rfl))
    exact ⟨e, d, hm.mem_history hinv, hslot, by rw [hd, hdk], hv⟩

/-- While a call is past the check of a document, no other call changes its text. -/
theorem Locked.text_kept {w w' : Workspace} (hl : Locked w) {id j k : Nat} {c c' : Call} {t : Turn}
    {d : Slot} (hcall : w.callAt id = some c) (ht : Turned w.store id c t)
    (hs : t.store? = some w'.store) (hne : j ≠ id) (hj : w.callAt j = some c')
    (hp : c'.place? = some k) (hh : c'.holdsLock = true) (hd : w.store.dataOf k = some d) :
    ∃ d', w'.store.dataOf k = some d' ∧ d'.version = d.version ∧ d'.revision = d.revision := by
  cases ht.dataStep hs with
  | same hsame => exact ⟨d, by rw [hsame, hd], rfl, rfl⟩
  | tracked _ _ _ _ _ _ hs' =>
    have := Store.lt_of_dataOf hd
    exact ⟨d, by rw [hs', Store.dataOf_withSlot, if_neg (by omega), hd], rfl, rfl⟩
  | replaced i d0 content v hc hd0 hs' =>
    subst hc
    have hik : k ≠ i := fun hik =>
      hne (hl.unique hj hp hh hcall (by rw [hik]; rfl) rfl)
    exact ⟨d, by rw [hs', Store.dataOf_replace hd0, if_neg hik, hd], rfl, rfl⟩
  | recorded i report hc hs' =>
    rw [hs', Store.dataOf_record]
    split
    · exact ⟨d.recorded report, by rw [hd]; rfl, rfl, rfl⟩
    · exact ⟨d, hd, rfl, rfl⟩

theorem Dated.edition_turned {w w' : Workspace} (h : Dated w) {id : Nat} {c : Call} {t : Turn}
    (hcall : w.callAt id = some c) (ht : Turned w.store id c t) (hs : t.store? = some w'.store)
    {e : Edition} (he : w.HandedOut e ∨ ∃ s, t = .done s (.opened e)) :
    ∃ d n, w'.store.dataOf e.slot = some d ∧ AtRevision w'.store e d n := by
  have hlife := ht.lifetime_eq hs
  cases ht.dataStep hs with
  | same hsame hr =>
    obtain ⟨d, n, hd, hrev⟩ := h.edition e (he.resolve_right fun ⟨s, hdone⟩ => hr s e hdone)
    exact ⟨d, n, by rw [hsame, hd], hrev.of_lifetime hlife⟩
  | recorded k report _ hs' hr =>
    obtain ⟨d, n, hd, hrev⟩ := h.edition e (he.resolve_right fun ⟨s, hdone⟩ => hr s e hdone)
    rw [hs', Store.dataOf_record, ← hs']
    split
    · exact ⟨d.recorded report, n, by rw [hd]; rfl, hrev.of_lifetime hlife⟩
    · exact ⟨d, n, hd, hrev.of_lifetime hlife⟩
  | tracked uri content version _ _ _ hs' ht' =>
    rcases he with he | ⟨s, hdone⟩
    · obtain ⟨d, n, hd, hrev⟩ := h.edition e he
      have := Store.lt_of_dataOf hd
      exact ⟨d, n, by rw [hs', Store.dataOf_withSlot, if_neg (by omega), hd],
        hrev.of_lifetime hlife⟩
    · rw [ht'] at hdone
      cases hdone
      refine ⟨_, 0, by rw [hs', Store.dataOf_withSlot, if_pos rfl], ?_, Or.inr ⟨rfl, rfl, rfl⟩⟩
      simp only [Store.editionScope, Store.slotScope, hlife]
  | replaced k d0 content version hc hd0 hs' ht' =>
    subst hc
    obtain ⟨d1, hd1, hlt⟩ := h.newer id k content version (Or.inr hcall)
    rw [Store.dataOf_eq hd0] at hd1
    cases hd1
    rcases he with he | ⟨s, hdone⟩
    · obtain ⟨d, n, hd, hscope, hrev⟩ := h.edition e he
      rw [hs', Store.dataOf_replace hd0, ← hs']
      split
      · -- an edition of the changed document is now an earlier one
        rename_i hek
        rw [hek, Store.dataOf_eq hd0] at hd
        cases hd
        refine ⟨_, n, rfl, ?_, Or.inl ?_⟩
        · rw [hscope]
          simp only [Store.editionScope, Store.slotScope, hlife]
        · simp only [Slot.revised, Slot.data_revision, Slot.data_version] at hrev hlt ⊢
          omega
      · exact ⟨d, n, hd, AtRevision.of_lifetime ⟨hscope, hrev⟩ hlife⟩
    · rw [ht'] at hdone
      cases hdone
      refine ⟨_, d0.revision + 1, by rw [hs', Store.dataOf_replace hd0, if_pos rfl], ?_,
        Or.inr ⟨rfl, rfl, rfl⟩⟩
      simp only [Store.editionScope, Store.slotScope, hlife]

theorem Dated.turned {w w' : Workspace} (h : Dated w) (hl : Locked w) (hst : Staged w) {id : Nat}
    {c : Call} {t : Turn} (hm : Moved w w') (hcall : w.callAt id = some c)
    (ht : Turned w.store id c t) (hs : t.store? = some w'.store)
    (hc : ∀ j, w'.callAt j = if j = id then t.call? else w.callAt j)
    (he : ∀ e, w'.HandedOut e ↔ w.HandedOut e ∨ ∃ s, t = .done s (.opened e)) : Dated w' := by
  -- the call after the turn, if it is past a check, comes from a turn that changes no data
  have hnext : ∀ {c'}, w'.callAt id = some c' → Turned w.store id c (.next w'.store c') := by
    intro c' hid
    rw [hc, if_pos rfl] at hid
    cases t with
    | blocked => cases hid
    | done s r => cases hid
    | next s c'' =>
      cases hid
      cases hs
      exact ht
  have hother : ∀ {j}, j ≠ id → w'.callAt j = w.callAt j := fun hj => by rw [hc, if_neg hj]
  refine ⟨fun e hout => h.edition_turned hcall ht hs ((he e).1 hout),
    fun j k content v hj => ?_, fun j k r hj => ?_⟩
  · by_cases hji : j = id
    · rw [hji] at hj
      rcases hj with hj | hj
      · obtain ⟨d, hd, hlt⟩ := (hnext hj).supersede_inv
        exact ⟨d.data, by rw [(hnext hj).dataOf_next, Store.dataOf_eq hd], hlt⟩
      · have hc' := (hnext hj).replace_inv
        subst hc'
        obtain ⟨d, hd, hlt⟩ := h.newer id k content v (Or.inl hcall)
        exact ⟨d, by rw [(hnext hj).dataOf_next, hd], hlt⟩
    · rw [hother hji] at hj
      obtain ⟨d, hd, hlt⟩ := h.newer j k content v hj
      obtain ⟨d', hd', hv, _⟩ : ∃ d', w'.store.dataOf k = some d' ∧ d'.version = d.version ∧
          d'.revision = d.revision := by
        rcases hj with hj | hj
        · exact hl.text_kept hcall ht hs hji hj rfl rfl hd
        · exact hl.text_kept hcall ht hs hji hj rfl rfl hd
      exact ⟨d', hd', by rw [hv]; exact hlt⟩
  · by_cases hji : j = id
    · rw [hji] at hj
      rcases hj with hj | hj
      · obtain ⟨d, e, hc', hd, hv, _⟩ := (hnext hj).publish_inv
        subst hc'
        obtain ⟨q, hq, hserve⟩ := hst.calls id _ hcall
        obtain ⟨rfl, hslot⟩ := hserve.commit_inv
        rw [hji]
        exact ⟨e, d.data, hm.mem_history hq, hslot.symm,
          by rw [(hnext hj).dataOf_next, Store.dataOf_eq hd], hv⟩
      · have hc' := (hnext hj).publishing_inv
        subst hc'
        obtain ⟨e, d, hinv, hslot, hd, hv⟩ := h.publishes id k r (Or.inl hcall)
        rw [hji]
        exact ⟨e, d, hm.mem_history hinv, hslot, by rw [(hnext hj).dataOf_next, hd], hv⟩
    · rw [hother hji] at hj
      obtain ⟨e, d, hinv, hslot, hd, hv⟩ := h.publishes j k r hj
      obtain ⟨d', hd', hv', _⟩ : ∃ d', w'.store.dataOf k = some d' ∧ d'.version = d.version ∧
          d'.revision = d.revision := by
        rcases hj with hj | hj
        · exact hl.text_kept hcall ht hs hji hj rfl rfl hd
        · exact hl.text_kept hcall ht hs hji hj rfl rfl hd
      exact ⟨e, d', hm.mem_history hinv, hslot, hd', hv'.trans hv⟩

theorem Dated.step {w w' : Workspace} (h : Dated w) (hl : Locked w) (hst : Staged w)
    (hm : Moved w w') : Dated w' := by
  have hm' := hm
  cases hm with
  | aside hs hc es hes hh =>
    exact h.of_same hm' (fun k => by rw [hs]) (fun e => handedOut_aside hes hh)
      (fun id c hid _ => by rw [← hc]; exact hid)
  | cancelled scope _ hs hc hh =>
    exact h.of_same hm' (fun k => by rw [hs]; rfl)
      (fun e => handedOut_cons (by rintro _ _ ⟨⟩) hh) (fun id c hid _ => by rw [← hc]; exact hid)
  | invoked id request _ _ _ _ hs hc hh =>
    refine h.of_same hm' (fun k => by rw [hs])
      (fun e => handedOut_cons (by rintro _ _ ⟨⟩) hh) (fun j c hj hold => ?_)
    rw [hc] at hj
    split at hj
    · cases hj
      cases request <;> cases hold
    · exact hj
  | turned id c t hcall ht hs hc es hes hh =>
    exact h.turned hl hst hm' hcall ht hs hc fun e => handedOut_turned hes hh

/-! ## Sound workspaces -/

/-- What holds of every workspace that comes from an empty store. -/
structure Sound (w : Workspace) : Prop where
  tidy : Tidy w
  staged : Staged w
  locked : Locked w
  dated : Dated w

theorem sound_fresh (lifetime : Scope) : Sound (fresh lifetime) where
  tidy := tidy_fresh lifetime
  staged := staged_fresh lifetime
  locked := locked_fresh lifetime
  dated := dated_fresh lifetime

theorem Sound.step {w : Workspace} (h : Sound w) {a : Action} (ha : w.Admits a) :
    Sound (w.step a) ∧ Moved w (w.step a) := by
  obtain ⟨htidy, hm⟩ := step_spec h.tidy ha
  exact ⟨⟨htidy, h.staged.step hm, h.locked.step h.staged hm,
    h.dated.step h.locked h.staged hm⟩, hm⟩

theorem Reaches.sound {w w' : Workspace} (h : Sound w) (hr : Reaches w w') : Sound w' := by
  induction hr with
  | refl => exact h
  | step _ a ha ih => exact (ih.step ha).1

/-- What every move of a sound workspace keeps holds along every run. -/
theorem Reaches.keeps {P : Workspace → Prop} {w w' : Workspace} (hr : Reaches w w') (h : Sound w)
    (hP : P w) (hstep : ∀ u v, Sound u → Sound v → Moved u v → P u → P v) : P w' := by
  induction hr with
  | refl => exact hP
  | step hr a ha ih =>
    obtain ⟨hv, hm⟩ := (hr.sound h).step ha
    exact hstep _ _ (hr.sound h) hv hm ih

theorem Reaches.lifetime {lifetime : Scope} {w : Workspace} (hr : Reaches (fresh lifetime) w) :
    w.store.lifetime = lifetime :=
  hr.keeps (P := fun u => u.store.lifetime = lifetime) (sound_fresh lifetime) rfl
    fun _ _ _ _ hm hu => hm.lifetime.trans hu

end Workspace

end PromqlServer.Document
