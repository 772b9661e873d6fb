import PromqlServer.Proofs.Prometheus.Interleaving
import PromqlServer.Proofs.Session.Errands

/-!
Which data source a session uses in the end. The jobs of `spawn_data_source_change` are under way at
the same time, and `change_data_source` serves them in the order in which they come to its lock,
whatever the order of the messages: each setting is switched to once, and the last switch to come of
those that succeed is the one that stays (`last_switch_stays`). So the latest setting wins if the
jobs come in turn, and need not win if they do not (`latest_setting_lost`).
-/

namespace PromqlServer.Session

open PromqlServer.Document PromqlServer.Prometheus PromqlServer.Query

/-! ## Runs -/

section Runs

variable {settings : Prometheus.Settings} {lost : Outcome} {s s' : Session} {j : Journal}
  {urls : List String} {a : Action}

/-- The journal of the client after an action. -/
def journalAfter (s : Session) (a : Action) (j : Journal) : Journal :=
  match s.event? a with
  | none => j
  | some e => j.note s.client e

theorem Steered.client (h : Steered s a s') :
    s'.client = match s.event? a with
      | none => s.client
      | some e => s.client.step e := by
  cases h with
  | aside _ hevent _ hclient | greeted _ _ _ hevent _ hclient | configured _ _ _ hevent _ hclient
  | welcomed _ _ _ _ _ _ hevent _ _ hclient | ended _ _ _ _ _ _ hevent _ _ hclient =>
    rw [hevent, hclient]
  | event _ _ hevent _ hclient | brought _ _ _ _ _ hevent _ _ hclient => rw [hevent, hclient]

/-- The URLs that were brought to the client of the backend, in this order. -/
def broughtUrls (j : Journal) : List String := j.operations.filterMap Operation.target?

theorem broughtUrls_note (j : Journal) (c : Client) (e : Prometheus.Event) :
    broughtUrls (j.note c e)
      = broughtUrls j ++ (e.operation?.bind Operation.target?).toList := by
  rw [broughtUrls, Journal.note, List.filterMap_append, broughtUrls]
  cases h : e.operation? with
  | none => rfl
  | some op =>
    rw [Option.toList_some, Option.bind_some, List.filterMap_cons]
    cases op.target? <;> rfl

theorem broughtUrls_note_of_ne {e : Prometheus.Event} (h : ∀ url, e ≠ .arrive (.switch url))
    (j : Journal) (c : Client) : broughtUrls (j.note c e) = broughtUrls j := by
  have hnone : e.operation?.bind Operation.target? = none := by
    cases e with
    | arrive op =>
      cases op with
      | switch url => exact absurd rfl (h url)
      | _ => rfl
    | _ => rfl
  rw [broughtUrls_note, hnone, Option.toList_none, List.append_nil]

@[simp] theorem pendingUrls_append (l r : List (Nat × Errand)) :
    pendingUrls (l ++ r) = pendingUrls l ++ pendingUrls r :=
  List.filterMap_append

@[simp] theorem pendingUrls_cons (x : Nat × Errand) (xs : List (Nat × Errand)) :
    pendingUrls (x :: xs) = x.2.url?.toList ++ pendingUrls xs := by
  rw [pendingUrls, List.filterMap_cons]
  cases x.2.url? <;> rfl

@[simp] theorem pendingUrls_nil : pendingUrls [] = [] := rfl

@[simp] theorem pendingUrls_switch (id : Nat) (url : Option String) :
    pendingUrls (url.map fun url => (id, Errand.switch url)).toList = url.toList := by
  cases url <;> rfl

theorem journalAfter_of_none (h : s.event? a = none) (j : Journal) : s.journalAfter a j = j := by
  rw [journalAfter, h]

theorem journalAfter_of_some {e : Prometheus.Event} (h : s.event? a = some e) (j : Journal) :
    s.journalAfter a j = j.note s.client e := by
  rw [journalAfter, h]

/-- Each URL that was set has been brought to the client of the backend, or is still to be. -/
theorem Steered.account (h : Steered s a s') (hown : a.IsOwn)
    (hold : urls.Perm (broughtUrls j ++ pendingUrls s.errands)) :
    (urls ++ (s.setting? a).toList).Perm
      (broughtUrls (s.journalAfter a j) ++ pendingUrls s'.errands) := by
  cases h with
  | aside hset hevent herrands =>
    rw [hset, journalAfter_of_none hevent, herrands, Option.toList_none, List.append_nil]
    exact hold
  | event e hset hevent herrands _ _ hno =>
    rw [hset, journalAfter_of_some hevent, broughtUrls_note_of_ne (hno hown), herrands,
      Option.toList_none, List.append_nil]
    exact hold
  | greeted id url hset hevent herrands =>
    rw [hset, journalAfter_of_none hevent, herrands, pendingUrls_append, ← List.append_assoc]
    refine hold.append ?_
    simp [Errand.url?]
  | configured id url hset hevent herrands =>
    rw [hset, journalAfter_of_none hevent, herrands, pendingUrls_append, ← List.append_assoc]
    refine hold.append ?_
    simp [Errand.url?]
  | welcomed id id' url l r hset hevent hbefore hafter =>
    rw [hset, journalAfter_of_none hevent, Option.toList_none, List.append_nil]
    refine hold.trans (List.Perm.append_left _ ?_)
    rw [hbefore, hafter, pendingUrls_append, pendingUrls_append, pendingUrls_append,
      pendingUrls_cons, pendingUrls_switch, List.append_assoc]
    exact List.perm_append_comm.append_left _
  | brought id url l r hset hevent hbefore hafter =>
    rw [hset, journalAfter_of_some hevent, broughtUrls_note, Option.toList_none, List.append_nil]
    refine hold.trans ?_
    rw [hbefore, hafter]
    simp only [pendingUrls_append, pendingUrls_cons, Errand.url?, Option.toList_some,
      Option.toList_none, Prometheus.Event.operation?, Option.bind_some, Operation.target?,
      List.append_assoc, List.singleton_append, List.nil_append]
    exact List.perm_middle.append_left _
  | ended id operation url l r hset hevent hbefore hafter =>
    rw [hset, journalAfter_of_none hevent, hafter, Option.toList_none, List.append_nil]
    rw [hbefore] at hold
    simpa [Errand.url?] using hold

/-- A switch that was brought to the client of the backend is over, or its job waits for it. -/
def Attended (s : Session) (j : Journal) : Prop :=
  ∀ n url, j.operations[n]? = some (.switch url) →
    (∃ r, (n, r) ∈ s.client.results) ∨ ∃ id, (id, Errand.switching n url) ∈ s.errands

/-- A job waits on, or its switch is over; and a switch that comes has its job. -/
theorem Attended.goes_on (h : Attended s j) (hresults : s.client.results <+: s'.client.results)
    {j' : Journal} {new : Option Operation}
    (hoperations : j'.operations = j.operations ++ new.toList)
    (hcome : ∀ url, new = some (.switch url) →
      ∃ id, (id, Errand.switching j.operations.length url) ∈ s'.errands)
    (hwait : ∀ id n url, (id, Errand.switching n url) ∈ s.errands →
      (∃ r, (n, r) ∈ s.client.results) ∨ (id, Errand.switching n url) ∈ s'.errands) :
    Attended s' j' := by
  have hkeep : ∀ n, (∃ r, (n, r) ∈ s.client.results) → ∃ r, (n, r) ∈ s'.client.results :=
    fun n ⟨r, hr⟩ => ⟨r, hresults.subset hr⟩
  intro n url hop
  rw [hoperations, List.getElem?_append] at hop
  split at hop
  · rcases h n url hop with hdone | ⟨id, hid⟩
    · exact Or.inl (hkeep n hdone)
    · exact (hwait id n url hid).imp (hkeep n) fun hmem => ⟨id, hmem⟩
  · rename_i hlength
    cases new with
    | none => cases hop
    | some op =>
      obtain ⟨hzero, rfl⟩ : n - j.operations.length = 0 ∧ op = .switch url := by
        simpa [List.getElem?_singleton] using hop
      obtain rfl : n = j.operations.length := by omega
      exact Or.inr (hcome url rfl)

theorem Steered.attended (h : Steered s a s') (hown : a.IsOwn)
    (harrived : s.client.arrived = j.operations.length) (hold : Attended s j) :
    Attended s' (s.journalAfter a j) := by
  have hresults : s.client.results <+: s'.client.results := by
    rw [h.client]
    split
    · exact List.prefix_rfl
    · exact s.client.results_step _
  have hnone : s.event? a = none →
      (s.journalAfter a j).operations = j.operations ++ (none : Option Operation).toList :=
    fun hevent => by rw [journalAfter_of_none hevent, Option.toList_none, List.append_nil]
  cases h with
  | aside _ hevent herrands =>
    exact hold.goes_on hresults (hnone hevent) nofun fun _ _ _ hm =>
      Or.inr (by rw [herrands]; exact hm)
  | event e _ hevent herrands _ _ hno =>
    refine hold.goes_on hresults (by rw [journalAfter_of_some hevent]; rfl) (fun url hurl => ?_)
      fun _ _ _ hm => Or.inr (by rw [herrands]; exact hm)
    cases e with
    | arrive op =>
      cases hurl
      exact absurd rfl (hno hown url)
    | _ => cases hurl
  | greeted id url _ hevent herrands =>
    exact hold.goes_on hresults (hnone hevent) nofun fun _ _ _ hm =>
      Or.inr (by rw [herrands]; exact List.mem_append_left _ hm)
  | configured id url _ hevent herrands =>
    exact hold.goes_on hresults (hnone hevent) nofun fun _ _ _ hm =>
      Or.inr (by rw [herrands]; exact List.mem_append_left _ hm)
  | welcomed id id' url l r _ hevent hbefore hafter =>
    refine hold.goes_on hresults (hnone hevent) nofun fun k n url' hm => Or.inr ?_
    rw [hbefore] at hm
    rw [hafter]
    simp only [List.mem_append, List.mem_cons, Prod.mk.injEq, reduceCtorEq, and_false,
      false_or] at hm ⊢
    exact Or.inl hm
  | brought id url l r _ hevent hbefore hafter =>
    refine hold.goes_on hresults (by rw [journalAfter_of_some hevent]; rfl)
      (fun url' hurl => ⟨id, ?_⟩) fun k n url' hm => Or.inr ?_
    · cases hurl
      rw [hafter, ← harrived]
      exact List.mem_append_right _ (List.mem_cons_self ..)
    · rw [hbefore] at hm
      rw [hafter]
      simp only [List.mem_append, List.mem_cons, Prod.mk.injEq, reduceCtorEq, and_false,
        false_or] at hm ⊢
      exact hm.imp_right Or.inr
  | ended id operation url l r _ hevent hbefore hafter _ _ hresult =>
    refine hold.goes_on hresults (hnone hevent) nofun fun k n url' hm => ?_
    rw [hbefore, List.mem_append, List.mem_cons] at hm
    rcases hm with hm | hm | hm
    · exact Or.inr (by rw [hafter]; exact List.mem_append_left _ hm)
    · cases hm
      obtain ⟨r, hr⟩ := Option.isSome_iff_exists.1 hresult
      exact Or.inl ⟨r, Client.mem_of_result? hr⟩
    · exact Or.inr (by rw [hafter]; exact List.mem_append_right _ hm)

/-- The URLs that were set are brought in their order. There is none before the handshake and no
other one while the handshake is not answered. -/
structure Ordered (s : Session) (j : Journal) (urls : List String) : Prop where
  order : urls = broughtUrls j ++ pendingUrls s.errands
  created : s.phase = .created → s.errands = []
  greeting : ∀ x ∈ s.errands, ∀ url, x.2 = .greeting url → s.errands = [x]

/-- A step after which no other jobs are about the backend. -/
theorem Ordered.same (h : Ordered s j urls) {j' : Journal} (hj : broughtUrls j' = broughtUrls j)
    (herrands : s'.errands = s.errands) (hphase : s'.phase = .created → s.phase = .created) :
    Ordered s' j' urls where
  order := by rw [hj, herrands]; exact h.order
  created := fun hc => by rw [herrands]; exact h.created (hphase hc)
  greeting := by rw [herrands]; exact h.greeting

/-- A job that is about the backend and not the handshake comes after the handshake. -/
theorem Ordered.past_greeting (h : Ordered s j urls) {x : Nat × Errand} (hx : x ∈ s.errands)
    (hne : ∀ url, x.2 ≠ .greeting url) : ∀ y ∈ s.errands, ∀ url, y.2 ≠ .greeting url := by
  intro y hy url hgreeting
  have hone := h.greeting y hy url hgreeting
  rw [hone] at hx
  rw [List.mem_singleton.1 hx] at hne
  exact hne url hgreeting

theorem Steered.ordered (h : Steered s a s') (hown : a.IsOwn) (hturn : s.inTurn a = true)
    (hold : Ordered s j urls) :
    Ordered s' (s.journalAfter a j) (urls ++ (s.setting? a).toList) := by
  have horder := hold.order
  have hactive : s.errands ≠ [] → s.phase ≠ .created := fun hne hc => hne (hold.created hc)
  cases h with
  | aside hset hevent herrands _ hphase =>
    rw [hset, Option.toList_none, List.append_nil, journalAfter_of_none hevent]
    exact hold.same rfl herrands hphase
  | event e hset hevent herrands _ hphase hno =>
    rw [hset, Option.toList_none, List.append_nil, journalAfter_of_some hevent]
    exact hold.same (broughtUrls_note_of_ne (hno hown) _ _) herrands hphase
  | greeted id url hset hevent herrands _ hcreated hphase =>
    rw [hold.created hcreated, List.nil_append] at herrands
    refine ⟨?_, fun hc => absurd hc hphase, fun x hx _ _ => ?_⟩
    · simp [horder, hold.created hcreated, journalAfter, hevent, herrands, hset, Errand.url?]
    · rw [herrands] at hx ⊢
      rw [List.mem_singleton.1 hx]
  | configured id url hset hevent herrands _ hphase hno =>
    refine ⟨?_, fun hc => absurd hc hphase, fun x hx url' hx' => ?_⟩
    · simp [horder, journalAfter, hevent, herrands, hset, Errand.url?]
    · rw [herrands] at hx
      rcases List.mem_append.1 hx with hx | hx
      · exact absurd hx' (hno hturn x hx url')
      · rw [List.mem_singleton.1 hx] at hx'
        cases hx'
  | welcomed id id' url l r hset hevent hbefore hafter _ hphase =>
    have hone := hold.greeting (id, .greeting url) (by rw [hbefore]; simp) url rfl
    obtain ⟨rfl, rfl⟩ : l = [] ∧ r = [] := by
      rw [hone] at hbefore
      cases l with
      | nil => simpa using hbefore
      | cons y l => simp at hbefore
    rw [List.append_nil, List.nil_append] at hafter
    refine ⟨?_, fun hc => ?_, fun x hx url' hx' => ?_⟩
    · cases url <;> simp [horder, hone, journalAfter, hevent, hafter, hset, Errand.url?]
    · exact absurd (hphase.symm.trans hc) (hactive (by simp [hone]))
    · rw [hafter] at hx
      obtain ⟨_, _, rfl⟩ := Option.map_eq_some_iff.1 (Option.mem_toList.1 hx)
      cases hx'
  | brought id url l r hset hevent hbefore hafter _ hphase hfirst =>
    have hpast := hold.past_greeting (x := (id, .switch url)) (by rw [hbefore]; simp)
      fun _ h => by cases h
    have hl : pendingUrls l = [] := by
      refine List.filterMap_eq_nil_iff.2 fun x hx => ?_
      have hx' : x ∈ s.errands := by rw [hbefore]; exact List.mem_append_left _ hx
      cases he : x.2 with
      | greeting url' => exact absurd he (hpast x hx' url')
      | switch url' => exact absurd he (hfirst hturn x hx url')
      | switching n url' => rfl
    refine ⟨?_, fun hc => ?_, fun x hx url' hx' => ?_⟩
    · simp [horder, hbefore, hl, journalAfter, hevent, hafter, hset, Errand.url?, broughtUrls_note,
        Prometheus.Event.operation?, Operation.target?]
    · exact absurd (hphase.symm.trans hc) (hactive (by simp [hbefore]))
    · rw [hafter, List.mem_append, List.mem_cons] at hx
      rcases hx with hx | rfl | hx
      · exact absurd hx' (hpast x (by simp [hbefore, hx]) url')
      · cases hx'
      · exact absurd hx' (hpast x (by simp [hbefore, hx]) url')
  | ended id operation url l r hset hevent hbefore hafter _ hphase =>
    have hpast := hold.past_greeting (x := (id, .switching operation url)) (by rw [hbefore]; simp)
      fun _ h => by cases h
    refine ⟨?_, fun hc => ?_, fun x hx url' hx' => ?_⟩
    · simp [horder, hbefore, journalAfter, hevent, hafter, hset, Errand.url?]
    · exact absurd (hphase.symm.trans hc) (hactive (by simp [hbefore]))
    · have hx : x ∈ s.errands := by
        rw [hafter, List.mem_append] at hx
        rw [hbefore, List.mem_append, List.mem_cons]
        exact hx.imp_right Or.inr
      exact absurd hx' (hpast x hx url')

/-! ## The backend in the end -/

/-- What is true of a session along a run: `j` is the journal of its client, and `urls` are the URLs
that were set. -/
structure Accounted (settings : Prometheus.Settings) (lost : Outcome) (s : Session) (j : Journal)
    (urls : List String) : Prop where
  steady : Steady s
  kept : ∃ n b, InOrder settings lost s.client j n b
  account : urls.Perm (broughtUrls j ++ pendingUrls s.errands)
  attended : Attended s j

theorem accounted_fresh (defaultUrl : String) (settings : Prometheus.Settings) (lost : Outcome) :
    Accounted settings lost (fresh defaultUrl settings) {} [] where
  steady := steady_fresh defaultUrl settings
  kept := ⟨0, 0, inOrder_fresh settings lost⟩
  account := List.Perm.refl _
  attended := nofun

theorem Accounted.step (h : Accounted settings lost s j urls) (hown : a.IsOwn) :
    Accounted settings lost (s.step a) (s.journalAfter a j) (urls ++ (s.setting? a).toList) := by
  have hsteered := h.steady.steered a
  obtain ⟨n, b, hkept⟩ := h.kept
  refine ⟨h.steady.step a, ?_, hsteered.account hown h.account,
    hsteered.attended hown hkept.arrived h.attended⟩
  rw [hsteered.client, journalAfter]
  cases s.event? a with
  | none => exact ⟨n, b, hkept⟩
  | some e => exact hkept.step e

/-- What a session is after a run, and that its settings were brought in order if its jobs went in
turn. -/
theorem Accounted.run (h : Accounted settings lost s j urls) {actions : List Action}
    (hown : ∀ a ∈ actions, a.IsOwn) :
    Accounted settings lost (s.run actions) (s.client.journal (s.eventsOf actions) j)
      (urls ++ s.settingsOf actions) ∧
    (AllowsAll (fun s a => s.inTurn a = true) s actions → Ordered s j urls →
      Ordered (s.run actions) (s.client.journal (s.eventsOf actions) j)
        (urls ++ s.settingsOf actions)) := by
  induction actions generalizing s j urls with
  | nil =>
    rw [settingsOf, List.append_nil]
    exact ⟨h, fun _ ho => ho⟩
  | cons a as ih =>
    have hstep := h.step (hown a (List.mem_cons_self ..))
    have hsteered := h.steady.steered a
    have hjournal : s.client.journal (s.eventsOf (a :: as)) j
        = (s.step a).client.journal ((s.step a).eventsOf as) (s.journalAfter a j) := by
      rw [hsteered.client, eventsOf, journalAfter]
      cases s.event? a <;> rfl
    rw [hjournal, settingsOf, ← List.append_assoc]
    obtain ⟨hrun, horder⟩ := ih hstep fun b hb => hown b (List.mem_cons_of_mem _ hb)
    refine ⟨hrun, fun hturn ho => horder hturn.2 ?_⟩
    exact hsteered.ordered (hown a (List.mem_cons_self ..)) hturn.1 ho

end Runs

theorem ordered_fresh (defaultUrl : String) (settings : Prometheus.Settings) :
    Ordered (fresh defaultUrl settings) {} [] :=
  ⟨rfl, fun _ => rfl, nofun⟩

/-- When no job is left that has to do with the backend, each URL that messages have set was
switched to once, each of these switches has returned, and what is installed is what the last of
them to come to the client of the backend of those that succeeded brought. If the jobs have come in
turn, the switches came in the order of the messages, so that the latest setting that could be used
is used. -/
theorem last_switch_stays (defaultUrl : String) (settings : Prometheus.Settings)
    (actions : List Action) (hown : ∀ a ∈ actions, a.IsOwn)
    (hdone : ((fresh defaultUrl settings).run actions).errands = []) :
    let r := fresh defaultUrl settings
    let s := r.run actions
    let operations := (r.eventsOf actions).filterMap Prometheus.Event.operation?
    (operations.filterMap Operation.target?).Perm (r.settingsOf actions) ∧
    (∀ x ∈ s.client.log operations, x.1.target?.isSome = true → x.2.isSome = true) ∧
    Produces s.client.installed (lastSwitch? (s.client.log operations)) ∧
    (AllowsAll (fun s a => s.inTurn a = true) r actions →
      operations.filterMap Operation.target? = r.settingsOf actions) := by
  intro r s operations
  obtain ⟨hrun, horder⟩ := (accounted_fresh defaultUrl settings (.ok ⟨404, .ok "", ""⟩)).run hown
  have hoperations : (r.client.journal (r.eventsOf actions) {}).operations = operations :=
    r.client.journal_operations _ _
  obtain ⟨n, b, hkept⟩ := hrun.kept
  refine ⟨?_, fun x hx htarget => ?_, ?_, fun hturn => ?_⟩
  · have haccount := hrun.account
    rw [hdone, pendingUrls_nil, List.append_nil, broughtUrls] at haccount
    rw [← hoperations]
    exact haccount.symm
  · obtain ⟨y, hy, rfl⟩ := List.mem_map.1 hx
    obtain ⟨op, k⟩ := y
    cases op with
    | switch url =>
      have hop := List.mem_zipIdx_iff_getElem?.1 hy
      rw [← hoperations] at hop
      rcases hrun.attended k url hop with ⟨result, hresult⟩ | ⟨id, hid⟩
      · rw [hkept.result?_eq hresult]
        rfl
      · rw [hdone] at hid
        cases hid
    | _ => cases htarget
  · have hproduces := hkept.produces
    rw [← hoperations]
    exact hproduces
  · have hall := (horder hturn (ordered_fresh defaultUrl settings)).order
    rw [hdone, pendingUrls_nil, List.append_nil, broughtUrls] at hall
    rw [← hoperations]
    exact hall.symm

instance : (a : Action) → Decidable a.IsOwn
  | .backend (.arrive _) => isFalse not_false
  | .backend .serve | .backend (.probed _) | .backend (.answered ..) => isTrue trivial
  | .document b => inferInstanceAs (Decidable (Action.document b).Occurs)
  | .receive _ | .advance _ | .endLifetime => isTrue trivial

/-- The settings of a client that name a backend. -/
def naming (url : String) : Json := .object [("url", .string url)]

/-- The handshake names a backend and is answered, and then the settings name another one. -/
def twoBackends : List Action :=
  [.receive (.handshake (some (naming "http://a/"))), .advance 1, .advance 1,
    .receive (.configured (naming "http://b/"))]

/-- The end of a probe that finds a backend without build information. -/
def found : Action := .backend (.probed (.ok ⟨404, .ok "", ""⟩))

/-- The job of the handshake goes first. -/
def taken : List Action :=
  twoBackends ++ [.advance 2, .advance 3, .backend .serve, found, .backend .serve, found,
    .advance 2, .advance 3]

/-- The backend of the settings is used. -/
theorem last_switch_stays_taken :
    (((fresh "" {}).eventsOf taken).filterMap Prometheus.Event.operation?).filterMap
      Operation.target? = ["http://a/", "http://b/"] ∧
    installedUrl ((fresh "" {}).run taken).client.installed = "http://b/" := by
  have hdone : ((fresh "" {}).run taken).errands = [] := List.isEmpty_iff.1 (by decide +kernel)
  obtain ⟨_, _, hproduces, horder⟩ := last_switch_stays "" {} taken (by decide) hdone
  have hsettings : (fresh "" {}).settingsOf taken = ["http://a/", "http://b/"] := by decide +kernel
  have hlast : lastSwitch? (((fresh "" {}).run taken).client.log
      (((fresh "" {}).eventsOf taken).filterMap Prometheus.Event.operation?))
        = some ("http://b/", some .legacy) := by decide +kernel
  refine ⟨(horder (by decide +kernel)).trans hsettings, ?_⟩
  rw [hlast] at hproduces
  obtain ⟨_, _, _, hinstalled⟩ := hproduces
  have htrimmed : Text.trimString "http://b/" = "http://b/" := by decide +kernel
  rw [hinstalled, installedUrl, htrimmed]

/-- The job of the settings goes first, and so the job of the handshake comes last. -/
def overtaken : List Action :=
  twoBackends ++ [.advance 3, .advance 2, .backend .serve, found, .backend .serve, found,
    .advance 3, .advance 2]

/-- A message is handled before the next one comes. -/
def oneByOne (s : Session) : Action → Bool
  | .receive _ => s.kinds.all Job.isBackground
  | _ => true

/-- The latest setting need not be used when all is over, not even if its switch succeeded and
messages were handled one by one. -/
theorem latest_setting_lost :
    ¬ ∀ actions : List Action, (∀ a ∈ actions, a.IsOwn) →
      AllowsAll (fun s a => s.oneByOne a = true) (fresh "" {}) actions →
      ((fresh "" {}).run actions).errands = [] →
      ∀ url, ((fresh "" {}).settingsOf actions).getLast? = some url →
        (∃ dialect, (Operation.switch url, some (.switched dialect)) ∈
          ((fresh "" {}).run actions).client.log
            (((fresh "" {}).eventsOf actions).filterMap Prometheus.Event.operation?)) →
        installedUrl ((fresh "" {}).run actions).client.installed = Text.trimString url := by
  intro h
  have hurl : installedUrl ((fresh "" {}).run overtaken).client.installed = "http://a/" := by
    decide +kernel
  have hlast := h overtaken (by decide) (by decide +kernel) (List.isEmpty_iff.1 (by decide +kernel))
    "http://b/" (by decide +kernel) ⟨some .legacy, by decide +kernel⟩
  rw [hurl] at hlast
  exact absurd hlast (by decide +kernel)

end PromqlServer.Session
