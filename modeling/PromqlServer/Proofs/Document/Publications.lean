import PromqlServer.Proofs.Document.Editions

/-!
The publishes in the history of a workspace. The contexts of a slot are handed out by `open` and
`change` with growing versions. The publish of a `commit` begins while its version is that of the
slot, and is over before the next one of the slot begins (`PublishOrder`).
-/

namespace PromqlServer.Document

/-! ## The order of events -/

theorem precedes_append {es h : List Event} {a b : Event} :
    Precedes (es ++ h) a b ↔ Precedes es a b ∨ (b ∈ es ∧ a ∈ h) ∨ Precedes h a b := by
  induction es with
  | nil => simp [Precedes]
  | cons e es ih =>
    rw [List.cons_append, precedes_cons, precedes_cons, ih, List.mem_cons, List.mem_append]
    constructor
    · rintro (⟨rfl, ha | ha⟩ | hp | ⟨hb, ha⟩ | hp)
      · exact Or.inl (Or.inl ⟨rfl, ha⟩)
      · exact Or.inr (Or.inl ⟨Or.inl rfl, ha⟩)
      · exact Or.inl (Or.inr hp)
      · exact Or.inr (Or.inl ⟨Or.inr hb, ha⟩)
      · exact Or.inr (Or.inr hp)
    · rintro ((⟨rfl, ha⟩ | hp) | ⟨rfl | hb, ha⟩ | hp)
      · exact Or.inl ⟨rfl, Or.inl ha⟩
      · exact Or.inr (Or.inl hp)
      · exact Or.inl ⟨rfl, Or.inr ha⟩
      · exact Or.inr (Or.inr (Or.inl ⟨hb, ha⟩))
      · exact Or.inr (Or.inr (Or.inr hp))

/-- Three events, the first of which happened last. -/
def Between (history : List Event) (a m b : Event) : Prop := [b, m, a].Sublist history

theorem between_cons {e a m b : Event} {h : List Event} :
    Between (e :: h) a m b ↔ (e = b ∧ Precedes h a m) ∨ Between h a m b := by
  constructor
  · intro hp
    cases hp with
    | cons _ hp => exact Or.inr hp
    | cons_cons _ hp => exact Or.inl ⟨rfl, hp⟩
  · rintro (⟨rfl, hp⟩ | hp)
    · exact hp.cons_cons _
    · exact hp.cons _

theorem between_append {es h : List Event} {a m b : Event} (hp : Between (es ++ h) a m b) :
    Precedes es m b ∨ (b ∈ es ∧ Precedes h a m) ∨ Between h a m b := by
  induction es with
  | nil => exact Or.inr (Or.inr hp)
  | cons e es ih =>
    rw [List.cons_append, between_cons] at hp
    rcases hp with ⟨rfl, hp⟩ | hp
    · rcases precedes_append.1 hp with hp | ⟨hm, _⟩ | hp
      · exact Or.inl (precedes_cons.2 (Or.inl ⟨rfl, hp.mem_right⟩))
      · exact Or.inl (precedes_cons.2 (Or.inl ⟨rfl, hm⟩))
      · exact Or.inr (Or.inl ⟨List.mem_cons_self .., hp⟩)
    · rcases ih hp with hp | ⟨hb, hp⟩ | hp
      · exact Or.inl (hp.append [e])
      · exact Or.inr (Or.inl ⟨List.mem_cons_of_mem _ hb, hp⟩)
      · exact Or.inr (Or.inr hp)

theorem Between.append {a m b : Event} {h : List Event} (hp : Between h a m b) (es : List Event) :
    Between (es ++ h) a m b := hp.trans (List.sublist_append_right es h)

theorem Between.precedes_right {a m b : Event} {h : List Event} (hp : Between h a m b) :
    Precedes h m b := by
  have hsub : [b, m].Sublist [b, m, a] := ((List.nil_sublist [a]).cons_cons m).cons_cons b
  exact hsub.trans hp

/-! ## What a step tells -/

/-- Events about the replies of calls and about publications. -/
def Event.isCallEvent : Event → Bool
  | .returned .. | .began .. | .ended _ => true
  | _ => false

theorem Event.isCallEvent_of_isAside {e : Event} (h : e.isAside = true) :
    e.isCallEvent = false := by
  cases e <;> first | rfl | cases h

namespace Workspace

/-- How a reply, or the start or the end of a publication, comes about in a step. -/
inductive News (w w' : Workspace) : Event → Prop
  | began (id k : Nat) (r : Report) (hc : w.callAt id = some (.publish k r))
      (hc' : w'.callAt id = some (.publishing k r)) (hs : w'.store = w.store) (es : List Event)
      (hh : w'.history = es ++ .began id r :: w.history) : News w w' (.began id r)
  | ended (id k : Nat) (r : Report) (hc : w.callAt id = some (.publishing k r)) :
      News w w' (.ended id)
  | returned (id : Nat) (c : Call) (s : Store) (reply : Reply) (hc : w.callAt id = some c)
      (hs : w'.store = s) (ht : Turned w.store id c (.done s reply)) (es : List Event)
      (hh : w'.history = es ++ .returned id reply :: (c.notes id ++ w.history)) :
      News w w' (.returned id reply)

/-- The new events of a turn are those of one call, of which at most one is not the end of a
publication. -/
theorem Moved.news {w w' : Workspace} (h : Moved w w') : ∃ es, w'.history = es ++ w.history ∧
    (∀ e ∈ es, e.isCallEvent = true → News w w' e) ∧
    ∀ a b, Precedes es a b → a.isCallEvent = true → b.isCallEvent = true → ∃ id, a = .ended id := by
  have hquiet : ∀ es : List Event, (∀ e ∈ es, e.isCallEvent = false) →
      w'.history = es ++ w.history →
      ∃ es, w'.history = es ++ w.history ∧ (∀ e ∈ es, e.isCallEvent = true → News w w' e) ∧
        ∀ a b, Precedes es a b → a.isCallEvent = true → b.isCallEvent = true →
          ∃ id, a = .ended id := by
    intro es hes hh
    refine ⟨es, hh, fun e he hsent => ?_, fun a b hp _ hsent => ?_⟩
    · rw [hes e he] at hsent
      cases hsent
    · rw [hes b hp.mem_right] at hsent
      cases hsent
  cases h with
  | aside _ _ es hes hh => exact hquiet es (fun e he => Event.isCallEvent_of_isAside (hes e he)) hh
  | invoked id request _ _ _ _ _ _ hh => exact hquiet [_] (by simp [Event.isCallEvent]) hh
  | cancelled scope _ _ _ hh => exact hquiet [_] (by simp [Event.isCallEvent]) hh
  | turned id c t hcall ht hs hc es hes hh =>
    have hes' : ∀ e ∈ es, e.isCallEvent = false := fun e he =>
      Event.isCallEvent_of_isAside (hes e he)
    have hself : w'.callAt id = t.call? := by rw [hc, if_pos rfl]
    refine ⟨es ++ (t.replies id ++ c.notes id), by rw [hh]; simp, fun e he hsent => ?_,
      fun a b hp ha hb => ?_⟩
    · rw [List.mem_append, List.mem_append] at he
      rcases he with he | he | he
      · rw [hes' e he] at hsent
        cases hsent
      · cases t with
        | blocked => cases he
        | next s c' => cases he
        | done s reply =>
          cases List.mem_singleton.1 he
          exact .returned id c s reply hcall (Option.some.inj hs).symm ht es hh
      · obtain ⟨k, r, rfl, rfl⟩ | ⟨k, r, rfl, rfl⟩ := Call.mem_notes he
        · cases ht with
          | blocked => cases hs
          | answered hbrief => cases hbrief
          | began =>
            generalize hstore : w'.store = s' at hs
            cases hs
            exact .began id k r hcall hself hstore es hh
        · exact .ended id k r hcall
    · have hold : Precedes (t.replies id ++ c.notes id) a b := by
        rcases precedes_append.1 hp with hp | ⟨hm, _⟩ | hp
        · rw [hes' b hp.mem_right] at hb
          cases hb
        · rw [hes' b hm] at hb
          cases hb
        · exact hp
      have hshort : ∀ l : List Event, l.length ≤ 1 → ¬ Precedes l a b := by
        intro l hl hp
        have := hp.length_le
        simp only [List.length_cons, List.length_nil] at this
        omega
      rcases precedes_append.1 hold with hp | ⟨_, hm⟩ | hp
      · exact absurd hp (hshort _ (by cases t <;> simp [Turn.replies]))
      · obtain ⟨k, r, rfl, rfl⟩ | ⟨k, r, rfl, rfl⟩ := Call.mem_notes hm
        · cases ht with
          | blocked => cases hs
          | answered hbrief => cases hbrief
          | began => exact absurd hold (hshort _ (by simp [Turn.replies, Call.notes]))
        · exact ⟨id, rfl⟩
      · exact absurd hp (hshort _ (by cases c <;> simp [Call.notes]))

theorem Moved.mem_news {w w' : Workspace} (h : Moved w w') {e : Event} (ht : e.isCallEvent = true)
    (he : e ∈ w'.history) : e ∈ w.history ∨ News w w' e := by
  obtain ⟨es, hh, hnews, _⟩ := h.news
  rw [hh, List.mem_append] at he
  exact he.symm.imp_right fun he => hnews e he ht

theorem Moved.precedes {w w' : Workspace} (h : Moved w w') {a b : Event} (ha : a.isCallEvent = true)
    (hb : b.isCallEvent = true) (hne : ∀ id, a ≠ .ended id) (hp : Precedes w'.history a b) :
    Precedes w.history a b ∨ (a ∈ w.history ∧ News w w' b) := by
  obtain ⟨es, hh, hnews, hlast⟩ := h.news
  rw [hh, precedes_append] at hp
  rcases hp with hp | ⟨hm, hp⟩ | hp
  · obtain ⟨id, rfl⟩ := hlast a b hp ha hb
    exact absurd rfl (hne id)
  · exact Or.inr ⟨hp, hnews b hm hb⟩
  · exact Or.inl hp

theorem Moved.between {w w' : Workspace} (h : Moved w w') {a m b : Event}
    (hm : m.isCallEvent = true) (hb : b.isCallEvent = true) (hne : ∀ id, m ≠ .ended id)
    (hp : Between w'.history a m b) :
    Between w.history a m b ∨ (Precedes w.history a m ∧ News w w' b) := by
  obtain ⟨es, hh, hnews, hlast⟩ := h.news
  rw [hh] at hp
  rcases between_append hp with hp | ⟨hmem, hp⟩ | hp
  · obtain ⟨id, rfl⟩ := hlast m b hp hm hb
    exact absurd rfl (hne id)
  · exact Or.inr ⟨hp, hnews b hmem hb⟩
  · exact Or.inl hp

/-! ## Publications one after the other -/

/-- Each number stands for one request. -/
def Once (w : Workspace) : Prop :=
  ∀ id r r', Event.invoked id r ∈ w.history → Event.invoked id r' ∈ w.history → r = r'

/-- What the history tells about editions and publications: editions come with growing versions,
publications of a document do not overlap, and none begins for an edition that has a successor. -/
structure PublishOrder (w : Workspace) : Prop where
  once : Once w
  ordered : ∀ i j e e', Precedes w.history (.returned i (.opened e)) (.returned j (.opened e')) →
    e.slot = e'.slot → e.version < e'.version
  origin : ∀ id r, Event.began id r ∈ w.history → ∃ e, Event.invoked id (.commit e r) ∈ w.history
  begun : ∀ id r, Event.began id r ∈ w.history →
    Precedes w.history (.began id r) (.ended id) ∨ ∃ k, w.callAt id = some (.publishing k r)
  apart : ∀ i j ri rj ei ej, Precedes w.history (.began i ri) (.began j rj) →
    Event.invoked i (.commit ei ri) ∈ w.history → Event.invoked j (.commit ej rj) ∈ w.history →
    ei.slot = ej.slot →
    Between w.history (.began i ri) (.ended i) (.began j rj) ∧ ei.version ≤ ej.version
  timely : ∀ i j id r e e', Event.invoked id (.commit e r) ∈ w.history → e.slot = e'.slot →
    ¬ Between w.history (.returned i (.opened e)) (.returned j (.opened e')) (.began id r)

theorem publishOrder_fresh (lifetime : Scope) : PublishOrder (fresh lifetime) where
  once := by simp [fresh, Once]
  ordered := by simp [fresh, Precedes]
  origin := by simp [fresh]
  begun := by simp [fresh]
  apart := by simp [fresh, Precedes]
  timely := by simp [fresh, Between]

theorem Once.step {w w' : Workspace} (h : Once w) (hm : Moved w w') : Once w' := by
  intro id r r' hr hr'
  cases hm with
  | aside _ _ es hes hh =>
    have haside : ∀ r, Event.invoked id r ∉ es := fun r he => by cases hes _ he
    rw [hh, List.mem_append] at hr hr'
    exact h id r r' (hr.resolve_left (haside r)) (hr'.resolve_left (haside r'))
  | invoked i request hnew _ _ _ _ _ hh =>
    rw [hh, List.mem_cons] at hr hr'
    rcases hr with heq | hr
    · cases heq
      rcases hr' with heq | hr'
      · cases heq
        rfl
      · exact absurd hr' (hnew r')
    · rcases hr' with heq | hr'
      · cases heq
        exact absurd hr (hnew r)
      · exact h id r r' hr hr'
  | cancelled scope _ _ _ hh =>
    rw [hh, List.mem_cons] at hr hr'
    exact h id r r' (hr.resolve_left nofun) (hr'.resolve_left nofun)
  | turned i c t _ _ _ _ es hes hh =>
    exact h id r r' ((invoked_turned hes hh).1 hr) ((invoked_turned hes hh).1 hr')

/-- The data of a document is at least as new as any of its editions. -/
theorem Dated.version_le {w : Workspace} (h : Dated w) {e : Edition} (he : w.HandedOut e) {d : Slot}
    (hd : w.store.dataOf e.slot = some d) : e.version ≤ d.version := by
  obtain ⟨d', n, hd', -, hrev⟩ := h.edition e he
  rw [hd] at hd'
  cases hd'
  omega

/-- A publication past its check is for the version that its document has. -/
theorem Sound.version_eq {w w' : Workspace} (h : Sound w) (hm : Moved w w') (honce : Once w')
    {id k : Nat} {r : Report} {e : Edition}
    (hc : w.callAt id = some (.publish k r) ∨ w.callAt id = some (.publishing k r))
    (he : Event.invoked id (.commit e r) ∈ w'.history) :
    e.slot = k ∧ ∃ d, w.store.dataOf k = some d ∧ d.version = e.version := by
  obtain ⟨e', d, he', hslot, hd, hv⟩ := h.dated.publishes id k r hc
  cases honce id _ _ he (hm.mem_history he')
  exact ⟨hslot, d, hd, hv⟩

/-- A request whose publication began is the one that it began for. -/
theorem PublishOrder.commit_eq {w w' : Workspace} (h : PublishOrder w) (hm : Moved w w')
    (honce : Once w') {id : Nat} {r : Report} {e : Edition} (hb : Event.began id r ∈ w.history)
    (he : Event.invoked id (.commit e r) ∈ w'.history) :
    Event.invoked id (.commit e r) ∈ w.history := by
  obtain ⟨e', he'⟩ := h.origin id r hb
  cases honce id _ _ he (hm.mem_history he')
  exact he'

theorem PublishOrder.ordered_step {w w' : Workspace} (h : PublishOrder w) (hw : Sound w)
    (hm : Moved w w') {i j : Nat} {e e' : Edition}
    (hp : Precedes w'.history (.returned i (.opened e)) (.returned j (.opened e')))
    (hslot : e.slot = e'.slot) : e.version < e'.version := by
  rcases hm.precedes rfl rfl (fun _ he => by cases he) hp with hp | ⟨ha, hb⟩
  · exact h.ordered i j e e' hp hslot
  · have hout : w.HandedOut e := ⟨i, ha⟩
    obtain ⟨d, hd, _⟩ := hw.staged.editions e hout
    cases hb with
    | returned _ c s _ hc _ ht =>
      cases ht with
      | answered _ _ hr => cases hr
      | left _ _ hr => exact absurd rfl (hr e')
      | tracked =>
        -- the slot is new, and `e` was there before
        have := Store.lt_of_dataOf hd
        rw [hslot] at this
        exact absurd this (Nat.lt_irrefl _)
      | replaced hheld =>
        obtain ⟨d', hd', hlt⟩ := hw.dated.newer j _ _ _ (Or.inr hc)
        have hle := hw.dated.version_le hout hd
        rw [hslot] at hd
        rw [hd'] at hd
        cases hd
        exact Int.lt_of_le_of_lt hle hlt

theorem PublishOrder.begun_step {w w' : Workspace} (h : PublishOrder w) (hm : Moved w w')
    {id : Nat} {r : Report} (hb : Event.began id r ∈ w'.history) :
    Precedes w'.history (.began id r) (.ended id) ∨ ∃ k, w'.callAt id = some (.publishing k r) := by
  rcases hm.mem_news rfl hb with hb | hb
  · rcases h.begun id r hb with hp | ⟨k, hc⟩
    · obtain ⟨es, hh⟩ := hm.history
      rw [hh]
      exact Or.inl (hp.append es)
    · cases hm with
      | aside _ hc' => exact Or.inr ⟨k, by rw [hc', hc]⟩
      | cancelled _ _ _ hc' => exact Or.inr ⟨k, by rw [hc', hc]⟩
      | invoked i request _ _ _ hnone _ hc' =>
        have hne : id ≠ i := fun hi => by rw [hi, hnone] at hc; cases hc
        exact Or.inr ⟨k, by rw [hc', if_neg hne, hc]⟩
      | turned i c t hcall ht hs hc' es hes hh =>
        by_cases hi : id = i
        · -- the publication itself takes a turn: it ends
          subst hi
          rw [hc] at hcall
          cases hcall
          rw [hh]
          exact Or.inl ((precedes_cons.2 (Or.inl ⟨rfl, hb⟩)).append _ |>.append _)
        · exact Or.inr ⟨k, by rw [hc', if_neg hi, hc]⟩
  · cases hb with
    | began _ k _ _ hc' => exact Or.inr ⟨k, hc'⟩

theorem PublishOrder.apart_step {w w' : Workspace} (h : PublishOrder w) (hw : Sound w)
    (hm : Moved w w') (honce : Once w') {i j : Nat} {ri rj : Report} {ei ej : Edition}
    (hp : Precedes w'.history (.began i ri) (.began j rj))
    (hi : Event.invoked i (.commit ei ri) ∈ w'.history)
    (hj : Event.invoked j (.commit ej rj) ∈ w'.history) (hslot : ei.slot = ej.slot) :
    Between w'.history (.began i ri) (.ended i) (.began j rj) ∧ ei.version ≤ ej.version := by
  rcases hm.precedes rfl rfl (fun _ he => by cases he) hp with hp | ⟨ha, hb⟩
  · have hi := h.commit_eq hm honce hp.mem_left hi
    have hj := h.commit_eq hm honce hp.mem_right hj
    obtain ⟨hbet, hle⟩ := h.apart i j ri rj ei ej hp hi hj hslot
    obtain ⟨es, hh⟩ := hm.history
    rw [hh]
    exact ⟨hbet.append es, hle⟩
  · have hi := h.commit_eq hm honce ha hi
    cases hb with
    | began _ k _ hc _ _ es hh =>
      obtain ⟨hk, d, hd, hv⟩ := hw.version_eq hm honce (Or.inl hc) hj
      have hout : w.HandedOut ei := hw.staged.commits i ei ri hi
      have hdi : w.store.dataOf ei.slot = some d := by rw [hslot, hk, hd]
      refine ⟨?_, by rw [← hv]; exact hw.dated.version_le hout hdi⟩
      rcases h.begun i ri ha with hend | ⟨k', hc'⟩
      · rw [hh]
        exact (between_cons.2 (Or.inl ⟨rfl, hend⟩)).append es
      · -- both would be past the check of the same document
        obtain ⟨hk', _⟩ := hw.version_eq hm honce (Or.inr hc') (hm.mem_history hi)
        have hkk : k' = k := by rw [← hk', ← hk, hslot]
        have := hw.locked.unique hc' rfl rfl hc (by rw [hkk]; rfl) rfl
        rw [this, hc] at hc'
        cases hc'

theorem PublishOrder.timely_step {w w' : Workspace} (h : PublishOrder w) (hw : Sound w)
    (hm : Moved w w') (honce : Once w') {i j id : Nat} {r : Report} {e e' : Edition}
    (he : Event.invoked id (.commit e r) ∈ w'.history) (hslot : e.slot = e'.slot) :
    ¬ Between w'.history (.returned i (.opened e)) (.returned j (.opened e')) (.began id r) := by
  intro hbet
  rcases hm.between rfl rfl (fun _ he => by cases he) hbet with hbet | ⟨hp, hb⟩
  · exact h.timely i j id r e e' (h.commit_eq hm honce hbet.precedes_right.mem_right he) hslot hbet
  · cases hb with
    | began _ k _ hc =>
      obtain ⟨hk, d, hd, hv⟩ := hw.version_eq hm honce (Or.inl hc) he
      have hlt := h.ordered i j e e' hp hslot
      have hle := hw.dated.version_le (e := e') ⟨j, hp.mem_right⟩ (by rw [← hslot, hk, hd])
      omega

theorem PublishOrder.step {w w' : Workspace} (h : PublishOrder w) (hw : Sound w) (hm : Moved w w') :
    PublishOrder w' := by
  have honce := h.once.step hm
  refine ⟨honce, fun i j e e' hp hslot => h.ordered_step hw hm hp hslot, fun id r hb => ?_,
    fun id r hb => h.begun_step hm hb,
    fun i j ri rj ei ej hp hi hj hslot => h.apart_step hw hm honce hp hi hj hslot,
    fun i j id r e e' he hslot => h.timely_step hw hm honce he hslot⟩
  rcases hm.mem_news rfl hb with hb | hb
  · obtain ⟨e, he⟩ := h.origin id r hb
    exact ⟨e, hm.mem_history he⟩
  · cases hb with
    | began _ k _ hc =>
      obtain ⟨e, _, he, _⟩ := hw.dated.publishes id k r (Or.inl hc)
      exact ⟨e, hm.mem_history he⟩

theorem Reaches.publishOrder {lifetime : Scope} {w : Workspace} (hr : Reaches (fresh lifetime) w) :
    PublishOrder w :=
  hr.keeps (sound_fresh lifetime) (publishOrder_fresh lifetime) fun _ _ hu _ hm h => h.step hu hm

end Workspace

end PromqlServer.Document
