import PromqlServer.Proofs.Document.Closings
import PromqlServer.Proofs.Document.Stretches

/-!
The end of a document cache. When `shutdown` has cancelled the lifetime and drained the table, no
call gets past its check any more, so that each `open`, `change`, `version` and `document` is
refused, calls that were under way before the end as well (`Emptied.refuses`).
-/

namespace PromqlServer.Document

/-- The call is past its check and has still to do what the check lets it do. -/
def Call.isGranted : Call → Bool
  | .supersede .. | .replace .. | .publish .. => true
  | _ => false

theorem Call.isMidway_of_isGranted {c : Call} (h : c.isGranted = true) : c.isMidway = true := by
  cases c <;> first | rfl | cases h

/-- An `open` checks the lifetime and inserts the slot in one turn, so that it is never between the
two. -/
theorem Serves.not_isGranted {s : Store} {uri : Uri} {content : String} {version : Int} {c : Call}
    (h : Serves s (.track uri content version) c) : c.isGranted = false := by
  cases h with
  | start hc =>
    subst hc
    rfl
  | arrive hr | queued hr => cases hr

/-- What a request for a document is refused with at the end. -/
def Request.refusal? : Request → Option StoreError
  | .track .. => some .shutDown
  | .change uri _ _ | .version uri | .snapshot uri => some (.expired uri)
  | _ => none

/-- A call that finds its document cancelled has expired. -/
theorem Store.check_of_cancelled {s s' : Store} {k : Nat} {d : Slot} {q : Request} {work : Work}
    {uri : Uri} {e : StoreError} {reply : Reply} (hcheck : s.check k d work = .done s' reply)
    (hcancelled : s.isCancelled (s.slotScope k) = true) (hwork : q.work? = some (uri, work))
    (hrefusal : q.refusal? = some e) : e = .expired uri ∧ reply = .failed (.expired d.uri) := by
  cases q with
  | change | version | snapshot =>
    cases hwork
    cases hrefusal
    simp only [Store.check, hcancelled, if_true, Turn.done.injEq] at hcheck
    exact ⟨rfl, hcheck.2.symm⟩
  | close => cases hrefusal
  | _ => cases hwork

namespace Workspace

variable {w w' : Workspace}

theorem Emptied.slotScope (h : Emptied w) (k : Nat) :
    w.store.isCancelled (w.store.slotScope k) = true :=
  Scope.isCancelled_child k h.1

/-- A call is refused in its first turn. -/
theorem Emptied.turn_call (h : Emptied w) {q : Request} {e : StoreError}
    (hq : q.refusal? = some e) (id : Nat) :
    w.store.turn id q.call = .done w.store (.failed e) := by
  have hlook : ∀ uri, w.store.lookup uri = none := fun uri => by simp [Store.lookup, h.2]
  cases q with
  | track uri content version =>
    cases hq
    simp [Request.call, Store.turn, Store.track, hlook, h.1]
  | change | version | snapshot =>
    cases hq
    simp only [Request.call, Store.turn, hlook]
  | _ => cases hq

/-- No call gets past its check any more. -/
theorem Emptied.isGranted_inv (h : Emptied w) (hw : Sound w) (hm : Moved w w') {id : Nat}
    {c' : Call} (hc' : w'.callAt id = some c') (hg : c'.isGranted = true) :
    ∃ c, w.callAt id = some c ∧ c.isGranted = true := by
  cases hm with
  | aside _ hc => exact ⟨c', by rw [← hc]; exact hc', hg⟩
  | cancelled _ _ _ hc => exact ⟨c', by rw [← hc]; exact hc', hg⟩
  | invoked j request _ _ _ _ _ hc =>
    rw [hc] at hc'
    split at hc'
    · cases hc'
      cases request <;> cases hg
    · exact ⟨c', hc', hg⟩
  | turned j c t hcall ht _ hc =>
    rw [hc] at hc'
    split at hc'
    · rename_i hj
      subst hj
      cases t with
      | blocked | done => cases hc'
      | next s _ =>
        cases hc'
        cases ht with
        | admitted _ hlive =>
          rw [h.slotScope] at hlive
          cases hlive
        | @passed k _ e r _ hlive =>
          -- the edition was cancelled with its document
          obtain ⟨q, hq, hserve⟩ := hw.staged.calls id _ hcall
          obtain ⟨rfl, hslot⟩ := hserve.commit_inv
          rw [hw.isCancelled_edition (hw.staged.commits id e r hq) (h.slotScope _)] at hlive
          cases hlive
        | superseded => exact ⟨_, hcall, rfl⟩
        | _ => cases hg
    · exact ⟨c', hc', hg⟩

/-- A call that was not let through in time is refused. -/
theorem Emptied.reply_eq (h : Emptied w) {id : Nat} {c : Call} {s : Store} {reply : Reply}
    (ht : Turned w.store id c (.done s reply)) (hc : c.isGranted = false) {q : Request}
    (hserve : Serves w.store q c) {e : StoreError} (hq : q.refusal? = some e) :
    reply = .failed e := by
  cases ht with
  | answered hbrief hturn =>
    cases hserve with
    | start hstart =>
      subst hstart
      rw [h.turn_call hq id] at hturn
      cases hturn
      rfl
    | _ => cases hbrief
  | tracked _ hlive =>
    rw [h.1] at hlive
    cases hlive
  | @left k d _ _ hheld hcheck =>
    cases hserve with
    | start hstart => cases q <;> cases hstart
    | queued hwork hd hu =>
      obtain ⟨rfl, hreply⟩ := Store.check_of_cancelled hcheck (h.slotScope k) hwork hq
      rw [Store.dataOf_eq (Store.held_eq_some_iff.1 hheld).1] at hd
      cases hd
      rw [hreply, ← hu]
      rfl
    | committing => cases hq
  | replaced => cases hc
  | ended =>
    cases hserve with
    | start hstart => cases q <;> cases hstart
    | publishing => cases hq
  | collected =>
    cases hserve with
    | start hstart => cases q <;> cases hstart
    | collect => cases hq

/-- The call is not let through, and the events in `es` refuse it. -/
structure Refused (id : Nat) (w : Workspace) (es : List Event) : Prop where
  waits : ∀ c, w.callAt id = some c → c.isGranted = false
  replies : ∀ reply, Event.returned id reply ∈ es →
    ∃ q, Event.invoked id q ∈ w.history ∧ ∀ e, q.refusal? = some e → reply = .failed e
  begins : ∀ r, Event.began id r ∉ es

theorem Refused.step {id : Nat} {es news : List Event} (h : Refused id w es) (hend : Emptied w)
    (hw : Sound w) (hm : Moved w w') (hnews : ∀ e ∈ news, e.isCallEvent = true → News w w' e) :
    Refused id w' (news ++ es) := by
  refine ⟨fun c' hc' => ?_, fun reply hreply => ?_, fun r hr => ?_⟩
  · cases hg : c'.isGranted with
    | false => rfl
    | true =>
      obtain ⟨c, hc, hg⟩ := hend.isGranted_inv hw hm hc' hg
      rw [h.waits c hc] at hg
      cases hg
  · rcases List.mem_append.1 hreply with hreply | hreply
    · cases hnews _ hreply rfl with
      | returned _ c s _ hc _ ht =>
        obtain ⟨q, hq, hserve⟩ := hw.staged.calls id c hc
        exact ⟨q, hm.mem_history hq, fun e he => hend.reply_eq ht (h.waits c hc) hserve he⟩
    · obtain ⟨q, hq, hrefusal⟩ := h.replies reply hreply
      exact ⟨q, hm.mem_history hq, hrefusal⟩
  · rcases List.mem_append.1 hr with hr | hr
    · cases hnews _ hr rfl with
      | began _ k _ hc => cases h.waits _ hc
    · exact h.begins r hr

/-- After the end no document is tracked, and each call is refused that was not let through before
the end. -/
theorem Emptied.refuses {v : Workspace} (h : Emptied v) (hv : Sound v) (hr : Reaches v w) :
    Emptied w ∧ ∃ es, w.history = es ++ v.history ∧
      ∀ id, (∀ c, v.callAt id = some c → c.isGranted = false) → Refused id w es := by
  refine hr.keeps (P := fun u => Emptied u ∧ ∃ es, u.history = es ++ v.history ∧
    ∀ id, (∀ c, v.callAt id = some c → c.isGranted = false) → Refused id u es) hv
    ⟨h, [], rfl, fun id hid => ⟨hid, nofun, nofun⟩⟩ ?_
  rintro u u' hu - hm ⟨hend, es, hh, hrefused⟩
  obtain ⟨news, hh', hnews, _⟩ := hm.news
  exact ⟨hend.step hm, news ++ es, by rw [hh', hh, List.append_assoc], fun id hid =>
    (hrefused id hid).step hend hu hm hnews⟩

/-! ## Calls that are over -/

/-- Calls that are over have returned. -/
def AllReturned (w : Workspace) : Prop := ∀ id q, Event.invoked id q ∈ w.history →
  w.callAt id = none → ∃ reply, Event.returned id reply ∈ w.history

theorem AllReturned.step (h : AllReturned w) (hm : Moved w w') : AllReturned w' := by
  intro id q hq hover
  have hold : Event.invoked id q ∈ w.history → w.callAt id = none →
      ∃ reply, Event.returned id reply ∈ w'.history := fun hq hover =>
    (h id q hq hover).imp fun _ hreply => hm.mem_history hreply
  cases hm with
  | aside _ hc es hes hh =>
    rw [hh, List.mem_append] at hq
    exact hold (hq.resolve_left fun hmem => by cases hes _ hmem) (by rw [← hc]; exact hover)
  | cancelled _ _ _ hc hh =>
    rw [hh, List.mem_cons] at hq
    exact hold (hq.resolve_left nofun) (by rw [← hc]; exact hover)
  | invoked j request _ _ _ _ _ hc hh =>
    rw [hc] at hover
    split at hover
    · cases hover
    · rename_i hne
      rw [hh, List.mem_cons] at hq
      exact hold (hq.resolve_left (by rintro ⟨⟩; exact hne rfl)) hover
  | turned j c t hcall ht hs hc es hes hh =>
    rw [hc] at hover
    split at hover
    · rename_i hj
      cases t with
      | blocked => cases hs
      | next => cases hover
      | done s reply => exact ⟨reply, (returned_turned hes hh).2 (Or.inr ⟨hj, s, rfl⟩)⟩
    · exact hold ((invoked_turned hes hh).1 hq) hover

theorem Reaches.allReturned {lifetime : Scope} (hr : Reaches (fresh lifetime) w) : AllReturned w :=
  hr.keeps (sound_fresh lifetime) (by simp [AllReturned, fresh]) fun _ _ _ _ hm hu => hu.step hm

end Workspace

end PromqlServer.Document
