import PromqlServer.Proofs.Document.Accounts
import PromqlServer.Proofs.Session.Runs

/-!
Every document that a session opens is cleared once. Whoever closes it, `did_close`, `shutdown` or
the lifetime watcher, the document is returned by one `close` or `shutdown` of the cache, and
`clear` is sent for it once (`documents_cleared_once`).
-/

namespace PromqlServer.Session

open PromqlServer.Document PromqlServer.Document.Workspace

/-- In a session with nothing under way, each name was closed as often as it was taken back, and as
often as it was opened, but for a document that is still tracked. Each closed document is one of
those that were opened, with the version of its last edition and with whether anything was
published for it. -/
theorem documents_cleared_once {defaultUrl : String} {settings : Prometheus.Settings} {s : Session}
    (h : Reaches (fresh defaultUrl settings) s) (hidle : s.workspace.tasks = []) :
    s.notices = sentNotices s.workspace.history ∧
    (∀ uri, (documentsOf s.workspace.history).countP (fun d => d.uri = uri)
        = (clearancesOf s.workspace.history).countP (fun n => n.uri = uri) ∧
      (answersOf s.workspace.history).countP (opens uri)
        = (documentsOf s.workspace.history).countP (fun d => d.uri = uri)
          + if (s.workspace.store.lookup uri).isSome then 1 else 0) ∧
    (clearancesOf s.workspace.history).Perm
      ((documentsOf s.workspace.history).map Closed.notice) ∧
    ∃ ks : List Nat, ks.Nodup ∧
      (∀ k, k ∈ ks ↔ k < s.workspace.store.slots.length ∧ ¬ s.workspace.store.Tracked k) ∧
      (documentsOf s.workspace.history).Perm (ks.filterMap s.workspace.store.closing) ∧
      ∀ k ∈ ks, ∃ d e, s.workspace.store.closing k = some d ∧ s.workspace.latest k = some e ∧
        d.uri = e.uri ∧ d.version = e.version ∧ (d.published = true ↔
          ∃ e' r, (Request.commit e' r, Reply.committed) ∈ answersOf s.workspace.history ∧
            e'.slot = k) := by
  have hrun := h.cache
  obtain ⟨ks, _, hnodup, hks, hreturned, hcleared⟩ := hrun.closed_at_rest hidle
  refine ⟨h.notices_eq, hrun.counts_at_rest hidle, hcleared, ks, hnodup, hks, hreturned,
    fun k hk => ?_⟩
  obtain ⟨d0, hd0⟩ := Option.isSome_iff_exists.1 (Store.dataOf_isSome_iff.2 ((hks k).1 hk).1)
  have hclosing : s.cache.store.closing k = some d0.close := by
    rw [Store.closing]
    exact congrArg (Option.map Slot.close) hd0
  obtain ⟨⟨e, he, huri, hversion⟩, hpublished⟩ := hrun.handled.closing_spec hclosing
  exact ⟨_, e, hclosing, he, huri, hversion, hpublished⟩

/-- A document is closed while its report goes out, and when a second one is open under its name
the session is shut down. -/
def shutWhileOpen : List Action :=
  [.receive (.handshake none), .receive (.opened ⟨"file:///rules"⟩ "up" 1), .advance 2,
    .document (.advance 0), .document (.advance 1), .document (.analysed 1 (.found [])),
    .document (.advance 1), .document (.advance 1),
    .receive (.closed ⟨"file:///rules"⟩), .advance 3, .document (.advance 2),
    .receive (.opened ⟨"file:///rules"⟩ "down" 5), .advance 4, .document (.advance 3),
    .document (.advance 1), .document (.advance 2), .document (.advance 2), .document (.advance 2),
    .receive .shutdown, .advance 5, .advance 5, .document (.advance 5), .document (.advance 4),
    .document (.advance 5), .document (.advance 5), .document (.advance 5)]

def shutSession : Session := shutWhileOpen.foldl stride (fresh "" {})

/-- Both documents of the name were taken back, each by the one who closed it. -/
theorem documents_cleared_once_shut :
    shutSession.workspace.tasks = [] ∧
    (clearancesOf shutSession.workspace.history).countP (fun n => n.uri = ⟨"file:///rules"⟩) = 2 ∧
    (answersOf shutSession.workspace.history).countP (opens ⟨"file:///rules"⟩) = 2 := by
  have hrun : Proceeds (fresh "" {}) shutSession := .run .refl (by decide)
  have hidle : shutSession.workspace.tasks = [] := by decide +kernel
  have hclosed : (documentsOf shutSession.workspace.history).countP
      (fun d => d.uri = ⟨"file:///rules"⟩) = 2 := by decide +kernel
  have hlook : shutSession.workspace.store.lookup ⟨"file:///rules"⟩ = none := by decide +kernel
  obtain ⟨_, hcounts, _⟩ := documents_cleared_once hrun.reaches hidle
  obtain ⟨hcleared, hopened⟩ := hcounts ⟨"file:///rules"⟩
  rw [hclosed] at hcleared hopened
  rw [hlook] at hopened
  exact ⟨hidle, hcleared.symm, hopened⟩

end PromqlServer.Session
