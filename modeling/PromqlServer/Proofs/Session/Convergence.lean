import PromqlServer.Proofs.Document.Views
import PromqlServer.Proofs.Session.Runs

/-!
What the client of a session sees when nothing is under way. A name that is not in the cache any
more was cleared. A tracked document is shown with its report, unless `did_open` came for the name
while an earlier `did_close` was waiting (`views_converge`): as `close` frees the name before it
waits, the clear of the old document may then come after the report of the new one
(`late_clearance`).
-/

namespace PromqlServer.Session

open PromqlServer.Document PromqlServer.Document.Workspace

/-- What can come about in a session in which no document is opened while one of its name is being
closed. -/
def Waits (uri : Uri) (s : Session) (a : Action) : Prop :=
  a.Occurs ∧ (s.workspace.store.lookup uri = none →
    ((s.step a).workspace.store.lookup uri).isSome = true → ¬ s.workspace.Closing uri)

instance (uri : Uri) (s : Session) (a : Action) : Decidable (Waits uri s a) :=
  inferInstanceAs (Decidable (_ ∧ _))

section Waits

variable {defaultUrl : String} {settings : Prometheus.Settings} {uri : Uri} {s : Session}

theorem Goes.reaches_of_waits {r : Session} (h : Goes (Waits uri) r s) : Reaches r s := by
  induction h with
  | refl => exact Goes.refl
  | step _ a ha ih => exact Goes.step ih a ha.1

theorem Goes.patient (h : Goes (Waits uri) (fresh defaultUrl settings) s) :
    Workspace.Goes (Patient uri) (Workspace.fresh [0]) s.cache := by
  refine Goes.cache h (steady_fresh defaultUrl settings) (fun _ _ ha => ha.1) ?_
  intro r a b ha hb hstep
  refine ⟨hb, fun hnone hsome => ha.2 hnone ?_⟩
  rw [← hstep] at hsome
  exact hsome

end Waits

/-- When nothing is under way, the last notice for a name that was opened and is not tracked any
more takes everything back. The last one for a tracked document with a report is the report, or
takes back what was said about a closed document of the name; it is the report if no document of the
name was opened while another one was being closed, and then nothing is taken back after a report of
a document that is still tracked. -/
theorem views_converge (defaultUrl : String) (settings : Prometheus.Settings) (uri : Uri) :
    (∀ s, Reaches (fresh defaultUrl settings) s → s.workspace.tasks = [] →
      (∀ e, s.workspace.HandedOut e → e.uri = uri → s.workspace.store.lookup uri = none →
        ∃ c ∈ documentsOf s.workspace.history, c.uri = uri ∧
          lastNotice uri s.notices = some c.notice) ∧
      ∀ (k : Nat) (d : Slot) (r : Report), s.workspace.store.lookup uri = some k →
        s.workspace.store.slots[k]? = some d → d.report = some r →
        lastNotice uri s.notices = some r.notice ∨
          ∃ c ∈ documentsOf s.workspace.history, c.uri = uri ∧
            lastNotice uri s.notices = some c.notice) ∧
    ∀ s, Goes (Waits uri) (fresh defaultUrl settings) s →
      (s.workspace.tasks = [] → ∀ (k : Nat) (d : Slot) (r : Report),
        s.workspace.store.lookup uri = some k → s.workspace.store.slots[k]? = some d →
        d.report = some r → lastNotice uri s.notices = some r.notice) ∧
      ∀ id r e, Event.began id r ∈ s.workspace.history →
        Event.invoked id (.commit e r) ∈ s.workspace.history →
        s.workspace.store.lookup uri = some e.slot →
        ∃ j r', Event.began j r' ∈ s.workspace.history ∧
          lastNotice uri s.notices = some r'.notice := by
  have hlast : ∀ {s x n}, Reaches (fresh defaultUrl settings) s →
      lastSent uri s.workspace.history = some x → x.notice? = some n →
      lastNotice uri s.notices = some n := by
    intro s x n h hx hn
    rw [h.notices_eq, lastNotice_sentNotices, hx]
    exact hn
  refine ⟨fun s h hidle => ⟨fun e he hu hnone => ?_, fun k d r hk hd hr => ?_⟩,
    fun s h => ⟨fun hidle k d r hk hd hr => ?_, fun id r e hb he hk => ?_⟩⟩
  · obtain ⟨c, hc, hcu, hsent⟩ := h.cache.untracked_at_rest hidle he hu hnone
    exact ⟨c, hc, hcu, hlast h hsent rfl⟩
  · rcases h.cache.tracked_at_rest hidle hk (Store.dataOf_eq hd) hr with ⟨id, hsent⟩ | hcleared
    · exact Or.inl (hlast h hsent rfl)
    · obtain ⟨c, hc, hcu, hsent⟩ := hcleared
      exact Or.inr ⟨c, hc, hcu, hlast h hsent rfl⟩
  · obtain ⟨id, hsent⟩ := h.patient.tracked_of_patient hidle hk (Store.dataOf_eq hd) hr
    exact hlast h.reaches_of_waits hsent rfl
  · obtain ⟨j, r', hsent⟩ :=
      h.patient.unmixed.reported e.slot id r e (Store.mem_table_of_lookup hk) hb he rfl
    exact ⟨j, r', (mem_of_lastSent hsent).1, hlast h.reaches_of_waits hsent rfl⟩

/-- A document is opened, shown and closed, and when it was taken back another one is opened under
its name and shown. -/
def reopened : List Action :=
  [.receive (.handshake none),
    .receive (.opened ⟨"file:///rules"⟩ "up" 1), .advance 2, .document (.advance 0),
    .document (.advance 1), .document (.analysed 1 (.found [])), .document (.advance 1),
    .document (.advance 1), .document (.advance 1), .document (.advance 1),
    .receive (.closed ⟨"file:///rules"⟩), .advance 3, .document (.advance 2),
    .document (.advance 2), .document (.advance 2), .document (.advance 2), .document (.advance 2),
    .document (.advance 2),
    .receive (.opened ⟨"file:///rules"⟩ "up(" 1), .advance 4, .document (.advance 3),
    .document (.advance 4), .document (.analysed 4 (.found bracketReport.diagnostics)),
    .document (.advance 4), .document (.advance 4), .document (.advance 4), .document (.advance 4)]

/-- The client has the report of the second document. -/
theorem views_converge_reopened :
    lastNotice ⟨"file:///rules"⟩ ((fresh "" {}).run reopened).notices
      = some bracketReport.notice := by
  have hrun : Goes (Waits ⟨"file:///rules"⟩) (fresh "" {}) ((fresh "" {}).run reopened) :=
    Goes.refl.run (by decide +kernel)
  have hidle : ((fresh "" {}).run reopened).workspace.tasks = [] := by decide +kernel
  have hlook : ((fresh "" {}).run reopened).workspace.store.lookup ⟨"file:///rules"⟩ = some 1 := by
    decide +kernel
  have hslot : ((fresh "" {}).run reopened).workspace.store.slots[1]?
      = some ⟨⟨"file:///rules"⟩, 1, "up(", 0, some bracketReport, true, []⟩ := by
    decide +kernel
  obtain ⟨hshown, _⟩ := (views_converge "" {} ⟨"file:///rules"⟩).2 _ hrun
  exact hshown hidle 1 _ bracketReport hlook hslot rfl

/-- A document is closed while its report goes out. Meanwhile another one is opened under its name,
checked and shown, and then the first one is taken back. -/
def takenBackLate : List Action :=
  [.receive (.handshake none), .advance 1, .advance 1,
    .receive (.opened ⟨"file:///rules"⟩ "up" 1), .advance 2, .document (.advance 0), .advance 2,
    .document (.advance 1),
    .document (.analysed 1 (Provider.lexical.analyse (fun _ => false) "up")),
    .document (.advance 1), .document (.advance 1),
    .receive (.closed ⟨"file:///rules"⟩), .advance 3, .document (.advance 2),
    .receive (.opened ⟨"file:///rules"⟩ "up(" 1), .advance 4, .document (.advance 3), .advance 4,
    .document (.advance 4),
    .document (.analysed 4 (Provider.lexical.analyse (fun _ => false) "up(")),
    .document (.advance 4), .document (.advance 4), .document (.advance 4),
    .document (.advance 1), .document (.advance 2), .document (.advance 2), .document (.advance 2),
    .advance 3]

def takenBackSession : Session := takenBackLate.foldl Session.stride (fresh "" {})

/-- A tracked document with a report need not be the one that the client is shown: what is sent
last may take back an earlier document of the name. -/
theorem late_clearance :
    ¬ ∀ (s : Session) (uri : Uri) (k : Nat) (d : Slot) (r : Report),
      Proceeds (fresh "" {}) s → s.workspace.tasks = [] → s.kinds.all Job.isWatch = true →
      s.workspace.store.lookup uri = some k → s.workspace.store.slots[k]? = some d →
      d.report = some r → lastNotice uri s.notices = some r.notice := by
  intro h
  have hrun : Proceeds (fresh "" {}) takenBackSession := .run .refl (by decide)
  have hidle : takenBackSession.workspace.tasks = [] := by decide +kernel
  have hwatch : takenBackSession.kinds.all Job.isWatch = true := by decide +kernel
  have hlook : takenBackSession.workspace.store.lookup ⟨"file:///rules"⟩ = some 1 := by
    decide +kernel
  have hslot : takenBackSession.workspace.store.slots[1]?
      = some ⟨⟨"file:///rules"⟩, 1, "up(", 0, some bracketReport, true, []⟩ := by
    decide +kernel
  have hlast : lastNotice ⟨"file:///rules"⟩ takenBackSession.notices
      = some ⟨⟨"file:///rules"⟩, some 1, []⟩ := by decide +kernel
  rw [h _ _ 1 _ bracketReport hrun hidle hwatch hlook hslot rfl] at hlast
  exact absurd hlast (by decide)

end PromqlServer.Session
