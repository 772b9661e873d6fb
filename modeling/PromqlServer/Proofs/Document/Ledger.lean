import PromqlServer.Proofs.Document.Solitary

/-!
A ledger of the tracked documents: all that has to be known to say which notices a client is sent.
Each `open`, `change`, `close` and `shutdown` of a session is an entry in the ledger, and a
workspace with nothing under way follows it: it comes to rest with the documents of the ledger,
after the notices of the entry.
-/

namespace PromqlServer.Document

open PromqlServer.Query

/-- The tracked documents with their versions, the oldest first. -/
structure Ledger where
  entries : List (Uri × Int) := []
  deriving DecidableEq, Repr

namespace Ledger

def version? (l : Ledger) (uri : Uri) : Option Int :=
  (l.entries.find? fun x => x.1 = uri).map Prod.snd

/-- A document is opened, unless it is tracked already. -/
def opened (l : Ledger) (uri : Uri) (text : String) (version : Int) : Ledger × List Notice :=
  match l.version? uri with
  | some _ => (l, [])
  | none => (⟨l.entries ++ [(uri, version)]⟩, [⟨uri, some version, faults text⟩])

/-- A tracked document gets a new text, if the version is a later one. -/
def changed (l : Ledger) (uri : Uri) (text : String) (version : Int) : Ledger × List Notice :=
  match l.version? uri with
  | none => (l, [])
  | some now =>
    if now < version then
      (⟨l.entries.map fun x => if x.1 = uri then (uri, version) else x⟩,
        [⟨uri, some version, faults text⟩])
    else (l, [])

/-- A tracked document is closed, and its diagnostics are taken back. -/
def closed (l : Ledger) (uri : Uri) : Ledger × List Notice :=
  match l.version? uri with
  | none => (l, [])
  | some now => (⟨l.entries.filter fun x => x.1 ≠ uri⟩, [⟨uri, some now, []⟩])

/-- All documents are closed. -/
def drained (l : Ledger) : Ledger × List Notice :=
  (⟨[]⟩, l.entries.map fun x => ⟨x.1, some x.2, []⟩)

end Ledger

namespace Workspace

/-- The ledger of a store. -/
def ledger (s : Store) : Ledger := ⟨s.documents⟩

theorem version?_ledger (s : Store) (uri : Uri) :
    (ledger s).version? uri = (s.lookup uri).map s.versionAt :=
  s.find?_documents uri

/-- A request comes to rest with the documents and after the notices of an entry. -/
def Enters (w : Workspace) (purpose : Purpose) (r : Request) (entry : Ledger × List Notice) :
    Prop :=
  ∃ n s, Ends n (w.invoke purpose r) s entry.2 ∧ s.Orderly ∧ ledger s = entry.1 ∧ w.store.Beside s

section Entries

variable {w : Workspace} {purpose : Purpose} {r : Request} {uri : Uri} {text : String}
  {version : Int}

/-- Nothing is under way, and the documents are in order. -/
structure Idle (w : Workspace) : Prop where
  tasks : w.tasks = []
  outbox : w.outbox = []
  orderly : w.store.Orderly

/-- A request that nothing follows from. -/
theorem Idle.enters_of_same (h : Idle w) (reply : Reply) (hr : w.store.Accepts r)
    (hp : w.store.perform r = (w.store, reply))
    (hreply : outcome w.store purpose reply = (w.store, [])) (hne : ∀ e, reply ≠ .opened e) :
    Enters w purpose r (ledger w.store, []) := by
  obtain ⟨n, hn⟩ := ends_invoke purpose h.tasks h.outbox h.orderly.quiet hr hp
    fun e he => absurd he (hne e)
  rw [hreply] at hn
  exact ⟨n, w.store, hn, h.orderly, rfl, .refl _⟩

/-- A request that hands out an edition, which is analysed. -/
theorem Idle.enters_of_opened (h : Idle w) {s : Store} {e : Edition} (hr : w.store.Accepts r)
    (hp : w.store.perform r = (s, .opened e)) (hs : s.Orderly) (he : s.Hands e)
    (hb : w.store.Beside s) :
    Enters w .analyse r (ledger s, [⟨e.uri, some e.version, faults e.content⟩]) := by
  obtain ⟨n, hn⟩ := ends_invoke .analyse h.tasks h.outbox h.orderly.quiet hr hp (by
    intro e' he'
    cases he'
    exact he)
  obtain ⟨horderly, hdocuments⟩ := hs.record e.slot e.report
  refine ⟨n, _, hn, horderly, ?_, hb.trans (Store.beside_record s e.slot e.report)⟩
  exact congrArg Ledger.mk hdocuments

theorem Idle.enters_track (h : Idle w) (hlive : w.store.isCancelled w.store.lifetime = false) :
    Enters w .analyse (.track uri text version) ((ledger w.store).opened uri text version) := by
  rw [Ledger.opened, version?_ledger]
  cases hlook : w.store.lookup uri with
  | some k =>
    refine h.enters_of_same (.failed (.alreadyOpen uri)) trivial ?_ rfl (by simp)
    simp [Store.perform, Store.track, hlook]
  | none =>
    obtain ⟨horderly, hdocuments, hhands⟩ := h.orderly.withSlot hlook hlive text version
    have henters := h.enters_of_opened (r := .track uri text version) trivial
      (Store.track_eq hlook hlive) horderly hhands ⟨rfl, fun _ _ => rfl⟩
    rw [ledger, hdocuments] at henters
    exact henters

theorem Idle.enters_change (h : Idle w) (hlive : w.store.isCancelled w.store.lifetime = false) :
    Enters w .analyse (.change uri text version) ((ledger w.store).changed uri text version) := by
  rw [Ledger.changed, version?_ledger]
  cases hlook : w.store.lookup uri with
  | none =>
    refine h.enters_of_same (.failed (.expired uri)) trivial ?_ rfl (by simp)
    simp [Store.perform, Store.visit, Store.document?_eq_none hlook]
  | some k =>
    obtain ⟨d, hdocument, hd, huri, hmem⟩ := h.orderly.document?_eq_some hlook
    have hslot := h.orderly.isCancelled_slot ⟨uri, hmem⟩ hlive
    simp only [Option.map_some, Store.versionAt_eq hd]
    by_cases hversion : d.version < version
    · have hperform : w.store.perform (.change uri text version)
          = (w.store.withText k d text version,
            .opened ⟨d.uri, version, text, k, w.store.editionScope k (d.revision + 1)⟩) := by
        have hle : ¬ version ≤ d.version := by omega
        simp only [Store.perform, Store.visit, hdocument, Store.attend, hslot, Bool.false_eq_true,
          if_false, if_neg hle]
        rfl
      obtain ⟨horderly, hdocuments, hhands, hbeside⟩ :=
        h.orderly.withText hlook hd hlive text version
      have henters := h.enters_of_opened (r := .change uri text version) trivial hperform horderly
        hhands hbeside
      rw [ledger, hdocuments] at henters
      rw [if_pos hversion, ← huri]
      rw [← huri] at henters
      exact henters
    · rw [if_neg hversion]
      refine h.enters_of_same (.failed (.outOfOrder d.uri d.version version)) trivial ?_ rfl
        (by simp)
      have hle : version ≤ d.version := by omega
      simp only [Store.perform, Store.visit, hdocument, Store.attend, hslot, Bool.false_eq_true,
        if_false, if_pos hle]

theorem Idle.enters_close (h : Idle w) :
    Enters w .clear (.close uri) ((ledger w.store).closed uri) := by
  rw [Ledger.closed, version?_ledger]
  cases hlook : w.store.lookup uri with
  | none =>
    refine h.enters_of_same (.failed (.expired uri)) trivial ?_ rfl (by simp)
    simp [Store.perform, Store.document?_eq_none hlook]
  | some k =>
    obtain ⟨d, hdocument, hd, huri, hmem⟩ := h.orderly.document?_eq_some hlook
    have hperform : w.store.perform (.close uri)
        = (w.store.withoutSlot uri k, .closed d.close) := by
      simp only [Store.perform, hdocument]
      rfl
    obtain ⟨horderly, hdocuments, hbeside⟩ := h.orderly.withoutSlot hlook
    obtain ⟨n, hn⟩ := ends_invoke (r := .close uri) .clear
      h.tasks h.outbox h.orderly.quiet trivial hperform (by simp)
    simp only [Option.map_some, Store.versionAt_eq hd]
    refine ⟨n, _, ?_, horderly, ?_, hbeside⟩
    · rw [← huri]
      rw [← huri] at hn
      exact hn
    · rw [ledger, hdocuments]
      rfl

theorem Idle.enters_snapshot (h : Idle w) (uri : Uri) :
    Enters w .answer (.snapshot uri) (ledger w.store, []) := by
  have hsame : (w.store.perform (.snapshot uri)).1 = w.store ∧
      ∀ e, (w.store.perform (.snapshot uri)).2 ≠ .opened e := by
    simp only [Store.perform, Store.visit]
    split
    · exact ⟨rfl, by simp⟩
    · simp only [Store.attend]
      split <;> exact ⟨rfl, by simp⟩
  exact h.enters_of_same _ trivial (Prod.ext hsame.1 rfl) rfl hsame.2

/-- A shutdown ends the lifetime of the documents, so that what is left is only that there are
none. -/
theorem Idle.ends_shutdown (h : Idle w) : ∃ n s, Ends n (w.invoke .clear .shutdown) s
    (ledger w.store).drained.2 ∧ s.Orderly ∧ ledger s = (ledger w.store).drained.1 := by
  obtain ⟨n, hn⟩ := ends_invoke (r := .shutdown) (s := w.store.emptied) .clear
    h.tasks h.outbox h.orderly.quiet trivial rfl (by simp)
  obtain ⟨horderly, hdocuments⟩ := h.orderly.emptied
  refine ⟨n, _, ?_, horderly, by rw [ledger, hdocuments]; rfl⟩
  have hnotices := h.orderly.closeAll
  simp only [Ledger.drained, ledger, ← hnotices]
  exact hn

end Entries

end Workspace

end PromqlServer.Document
