import Mathlib.Data.List.Basic
import PromqlServer.Proofs.Document.Tasks

/-!
The account of all slots. A slot is in the table, taken out by a `close` or `shutdown` that has to
close it, or closed, and exactly one of these (`Accounted`). What was closed was returned by the
call or is still collected by it, and its clear was sent or a task has still to send it.
-/

namespace PromqlServer.Document

/-! ## What calls and tasks have in their hands -/

/-- The documents that a shutdown has closed so far. -/
def Call.gathered : Call → List Closed
  | .collect _ closed | .collecting _ _ closed => closed
  | _ => []

namespace Task

/-- The slots that the call of a task has taken out of the table and not closed yet. -/
def removes (t : Task) : List Nat := t.call?.elim [] Call.removes

/-- The documents that the call of a task has closed and not returned yet. -/
def gathered (t : Task) : List Closed := t.call?.elim [] Call.gathered

/-- The closed documents of which the client is not told yet. -/
def holds : Task → List Closed
  | .clearing ds => ds
  | t => t.gathered

end Task

/-- The closed documents that an event returns. -/
def Event.documents : Event → List Closed
  | .returned _ reply => reply.documents
  | _ => []

/-- The notice by which the client is told to forget a document. -/
def Event.clearance? : Event → Option Notice
  | .cleared n => some n
  | _ => none

/-- The slots that a call has taken out after a turn. -/
def Turn.removes (t : Turn) : List Nat := t.call?.elim [] Call.removes

/-- The documents that a turn returns, or the call has closed so far. -/
def Turn.documents : Turn → List Closed
  | .blocked => []
  | .next _ c => c.gathered
  | .done _ reply => reply.documents

/-- What is known of a document when it is closed now. -/
def Store.closing (s : Store) (k : Nat) : Option Closed := (s.dataOf k).map Slot.close

theorem Call.gathered_of_isBrief {c : Call} (h : c.isBrief = true) : c.gathered = [] := by
  cases c <;> first | rfl | cases h

theorem Reply.documents_of_isBrief {r : Reply} (h : r.isBrief = true) : r.documents = [] := by
  cases r <;> first | rfl | cases h

namespace Store

/-- The documents of one name are all but those of the others. -/
theorem perm_filter_table {s : Store} {uri : Uri} {k : Nat} (hk : s.lookup uri = some k)
    (hunique : ∀ j, (uri, j) ∈ s.table → j = k) (hnodup : (s.table.map Prod.snd).Nodup) :
    (s.table.map Prod.snd).Perm
      (k :: (s.table.filter fun entry => entry.1 ≠ uri).map Prod.snd) := by
  obtain ⟨l, r, htable⟩ := List.append_of_mem (mem_table_of_lookup hk)
  have hothers : ∀ x ∈ l ++ r, x.1 ≠ uri := by
    rintro ⟨u, j⟩ hx rfl
    have hmem : (u, j) ∈ s.table := by
      rw [htable]
      rcases List.mem_append.1 hx with hx | hx
      · exact List.mem_append_left _ hx
      · exact List.mem_append_right _ (List.mem_cons_of_mem _ hx)
    obtain rfl := hunique j hmem
    rw [htable] at hnodup
    have hperm : (l ++ (u, j) :: r).Perm ((u, j) :: (l ++ r)) := List.perm_middle
    have hcons := (hperm.map Prod.snd).nodup_iff.1 hnodup
    rw [List.map_cons, List.nodup_cons] at hcons
    exact hcons.1 (List.mem_map_of_mem hx)
  have hfilter : (s.table.filter fun entry => entry.1 ≠ uri) = l ++ r := by
    rw [htable, List.filter_append, List.filter_cons_of_neg (by simp), ← List.filter_append]
    exact List.filter_eq_self.2 fun x hx => by simpa using hothers x hx
  rw [hfilter, htable]
  exact List.perm_middle.map Prod.snd

end Store

/-- A reply under the lock closes the document or brings none. -/
theorem check_documents {s s' : Store} {k : Nat} {d : Slot} {work : Work} {reply : Reply}
    (h : s.check k d work = .done s' reply) :
    (work = .close ∧ reply = .closed d.close) ∨ (work ≠ .close ∧ reply.isClosing = false) := by
  unfold Store.check at h
  cases work with
  | close =>
    cases h
    exact Or.inl ⟨rfl, rfl⟩
  | change content version =>
    simp only at h
    split at h
    · cases h; exact Or.inr ⟨nofun, rfl⟩
    · split at h
      · cases h; exact Or.inr ⟨nofun, rfl⟩
      · cases h
  | version => simp only at h; split at h <;> cases h <;> exact Or.inr ⟨nofun, rfl⟩
  | snapshot => simp only at h; split at h <;> cases h <;> exact Or.inr ⟨nofun, rfl⟩
  | commit e r =>
    simp only at h
    split at h
    · cases h; exact Or.inr ⟨nofun, rfl⟩
    · cases h

theorem check_ne_committed {s s' : Store} {k : Nat} {d : Slot} {work : Work} :
    s.check k d work ≠ .done s' .committed := by
  intro h
  unfold Store.check at h
  cases work <;> simp only at h <;> repeat' split at h
  all_goals cases h

/-- What a turn does in the account: the slots `new` are opened, and the slots `ks` are closed. -/
structure Turned.Booked (s s' : Store) (c : Call) (t : Turn) (new ks : List Nat) : Prop where
  range : List.range s'.slots.length = List.range s.slots.length ++ new
  slots : (s.table.map Prod.snd ++ (c.removes ++ new)).Perm
    (s'.table.map Prod.snd ++ (t.removes ++ ks))
  documents : t.documents = c.gathered ++ ks.filterMap s'.closing

theorem Turned.booked {s s' : Store} {id : Nat} {c : Call} {t : Turn} (h : Turned s id c t)
    (hs : t.store? = some s') (hfind : ∀ uri, c ≠ .find uri .close)
    (hunique : ∀ uri j k, (uri, j) ∈ s.table → (uri, k) ∈ s.table → j = k)
    (hnodup : (s.table.map Prod.snd).Nodup) : ∃ new ks, Turned.Booked s s' c t new ks := by
  -- a turn that opens nothing and closes nothing
  have hsame : s'.slots.length = s.slots.length → s'.table = s.table → t.removes = c.removes →
      t.documents = c.gathered → ∃ new ks, Turned.Booked s s' c t new ks := by
    intro hlen htable hremoves hdocuments
    exact ⟨[], [], by rw [hlen, List.append_nil], by rw [htable, hremoves], by simp [hdocuments]⟩
  have hmodify : ∀ k f, (s.modifySlot k f).slots.length = s.slots.length := s.length_modifySlot
  have hclosing : ∀ {k d}, s.held id k = some d → (s.release k).closing k = some d.close := by
    intro k d hd
    rw [Store.closing, Store.dataOf_release, Store.dataOf_eq (Store.held_eq_some_iff.1 hd).1]
    rfl
  cases h with
  | blocked => cases hs
  | answered hc _ hr =>
    cases hs
    exact hsame rfl rfl (Call.removes_of_isBrief hc).symm
      ((Reply.documents_of_isBrief hr).trans (Call.gathered_of_isBrief hc).symm)
  | tracked =>
    cases hs
    refine ⟨[s.slots.length], [], ?_, ?_, rfl⟩
    · simp [Store.withSlot, List.range_succ]
    · simp [Store.withSlot, Turn.removes, Turn.call?, Call.removes]
  | @found uri work k =>
    cases hs
    cases work with
    | close => exact absurd rfl (hfind uri)
    | _ => exact hsame rfl rfl rfl rfl
  | @removed uri k hk =>
    cases hs
    refine ⟨[], [], (List.append_nil _).symm, ?_, rfl⟩
    have hperm := s.perm_filter_table hk
      (fun j hj => hunique uri j k hj (Store.mem_table_of_lookup hk)) hnodup
    simp only [Call.removes, Turn.removes, Turn.call?, Option.elim, List.append_nil]
    exact hperm.trans (List.perm_append_singleton _ _).symm
  | slotCancelled => cases hs; exact hsame rfl rfl rfl rfl
  | @arrived k work =>
    cases hs
    cases work <;> exact hsame (hmodify _ _) rfl rfl rfl
  | @left k d work reply hd hcheck =>
    cases hs
    rcases check_documents hcheck with ⟨rfl, rfl⟩ | ⟨hwork, hreply⟩
    · refine ⟨[], [k], by simp [Store.release], .refl _, ?_⟩
      rw [List.filterMap_cons_some (hclosing hd)]
      rfl
    · refine hsame (hmodify _ _) rfl ?_ (Reply.documents_of_not_closing hreply)
      cases work <;> first | rfl | exact absurd rfl hwork
  | admitted => cases hs; exact hsame rfl rfl rfl rfl
  | passed => cases hs; exact hsame rfl rfl rfl rfl
  | superseded => cases hs; exact hsame rfl rfl rfl rfl
  | replaced =>
    cases hs
    exact hsame ((Store.length_modifySlot _ _ _).trans (hmodify _ _)) rfl rfl rfl
  | began => cases hs; exact hsame rfl rfl rfl rfl
  | ended =>
    cases hs
    exact hsame ((Store.length_modifySlot _ _ _).trans (hmodify _ _)) rfl rfl rfl
  | lifetimeEnded => cases hs; exact hsame rfl rfl rfl rfl
  | drained =>
    cases hs
    exact ⟨[], [], (List.append_nil _).symm, by simp [Call.removes, Turn.removes, Turn.call?], rfl⟩
  | collected => cases hs; exact hsame rfl rfl rfl rfl
  | joined => cases hs; exact hsame (hmodify _ _) rfl rfl rfl
  | @taken k d ks closed hd =>
    cases hs
    refine ⟨[], [k], by simp [Store.release], ?_, ?_⟩
    · rw [List.append_nil]
      exact (List.perm_append_singleton k ks).symm.append_left _
    · rw [List.filterMap_cons_some (hclosing hd)]
      rfl

/-- Only a call that is made to clear returns closed documents. -/
theorem Turned.purpose?_of_isClosing {s s' : Store} {id : Nat} {c : Call} {reply : Reply}
    (h : Turned s id c (.done s' reply)) (hr : reply.isClosing = true) :
    c.purpose? = some .clear := by
  cases h with
  | answered _ _ hbrief => cases reply <;> first | cases hr; done | cases hbrief
  | left _ hcheck =>
    rcases check_documents hcheck with ⟨rfl, _⟩ | ⟨_, hreply⟩
    · rfl
    · rw [hreply] at hr
      cases hr
  | collected => rfl
  | _ => cases hr

namespace Workspace

/-! ## The account -/

/-- All closed documents that calls have returned. -/
def documentsOf (history : List Event) : List Closed := history.flatMap Event.documents

/-- All notices by which the client was told to forget a document. -/
def clearancesOf (history : List Event) : List Notice := history.filterMap Event.clearance?

/-- What a step does in the account. -/
inductive Balanced (s s' : Store) (before after : List (Nat × Task)) (es : List Event) : Prop
  | quiet (hslots : s'.slots = s.slots) (htable : s'.table = s.table)
      (hremoves : across Task.removes after = across Task.removes before)
      (hgathered : across Task.gathered after = across Task.gathered before)
      (hheld : across Task.holds after = across Task.holds before)
      (hdocuments : documentsOf es = []) (hclearances : clearancesOf es = [])
  | clearSent (d : Closed) (hslots : s' = s)
      (hremoves : across Task.removes after = across Task.removes before)
      (hgathered : across Task.gathered after = across Task.gathered before)
      (hheld : across Task.holds before = d :: across Task.holds after)
      (hdocuments : documentsOf es = []) (hclearances : clearancesOf es = [d.notice])
  | turned (id : Nat) (c : Call) (t : Turn)
      (hm : ∃ task, (id, task) ∈ before ∧ task.call? = some c)
      (ht : Turned s id c t) (hs : t.store? = some s')
      (hbefore : across Task.removes before = c.removes)
      (hafter : across Task.removes after = t.removes)
      (hgathered : across Task.gathered before = c.gathered)
      (hdocuments : documentsOf es ++ across Task.gathered after = t.documents)
      (hheld : across Task.holds before = c.gathered)
      (hheld' : across Task.holds after = t.documents) (hclearances : clearancesOf es = [])

theorem documentsOf_notes (id : Nat) (c : Call) : documentsOf (c.notes id) = [] := by
  cases c <;> rfl

theorem clearancesOf_notes (id : Nat) (c : Call) : clearancesOf (c.notes id) = [] := by
  cases c <;> rfl

theorem documentsOf_returned (id : Nat) (c : Call) (reply : Reply) :
    documentsOf (.returned id reply :: c.notes id) = reply.documents := by
  have hcons : documentsOf (.returned id reply :: c.notes id)
      = reply.documents ++ documentsOf (c.notes id) := rfl
  rw [hcons, documentsOf_notes, List.append_nil]

/-- A turn of the call of one task. -/
theorem Balanced.of_turn {s s' : Store} {id : Nat} {task : Task} {c : Call} {t : Turn}
    {after : List (Nat × Task)} {es : List Event} (hcall : task.call? = some c)
    (hholds : task.holds = c.gathered) (ht : Turned s id c t) (hs : t.store? = some s')
    (hafter : across Task.removes after = t.removes)
    (hdocuments : documentsOf es ++ across Task.gathered after = t.documents)
    (hheld : across Task.holds after = t.documents) (hclearances : clearancesOf es = []) :
    Balanced s s' [(id, task)] after es := by
  refine .turned id c t ⟨task, List.mem_singleton.2 rfl, hcall⟩ ht hs ?_ hafter ?_ hdocuments ?_
    hheld hclearances
  · rw [across_singleton, Task.removes, hcall]
    rfl
  · rw [across_singleton, Task.gathered, hcall]
    rfl
  · rw [across_singleton, hholds]

theorem TaskStep.balanced {w : Workspace} {a : Action} {s : Store}
    {before after : List (Nat × Task)} {es : List Event} {ns : List Notice}
    (h : TaskStep w a s before after es ns)
    (hsuits : ∀ x ∈ before, x.2.Suits Eq) (ha : w.Handles a) :
    Balanced w.store s before after es := by
  cases h with
  | cleared => exact ha.elim
  | clearSent => exact .clearSent _ rfl rfl rfl (by simp [Task.holds]) rfl rfl
  | still | clearsSent | cancelled => exact .quiet rfl rfl rfl rfl rfl rfl rfl
  | scheduled =>
    exact .quiet rfl rfl (across_singleton ..) (across_singleton ..) (across_singleton ..) rfl rfl
  | invoked =>
    rename_i p q
    have hnone : q.call.removes = [] ∧ q.call.gathered = [] := by cases q <;> exact ⟨rfl, rfl⟩
    exact .quiet rfl rfl ((across_singleton ..).trans hnone.1) ((across_singleton ..).trans hnone.2)
      ((across_singleton ..).trans hnone.2) rfl rfl
  | dropped hstage =>
    rcases hstage with rfl | rfl <;> exact .quiet rfl rfl rfl rfl rfl rfl rfl
  | analysing | found => exact .quiet rfl rfl rfl rfl rfl rfl rfl
  | @next id p c c' s ht =>
    refine .of_turn rfl rfl ht rfl (across_singleton ..) ?_ (across_singleton ..)
      (clearancesOf_notes id c)
    rw [documentsOf_notes, across_singleton]
    rfl
  | @committing id e c c' s ht =>
    refine .of_turn rfl rfl ht rfl (across_singleton ..) ?_ (across_singleton ..)
      (clearancesOf_notes id c)
    rw [documentsOf_notes, across_singleton]
    rfl
  | @opened id c s e ht =>
    refine .of_turn rfl rfl ht rfl (across_singleton ..) ?_ (across_singleton ..)
      (clearancesOf_notes id c)
    rw [across_singleton]
    exact congrArg (· ++ []) (documentsOf_returned id c (.opened e))
  | @closed id c s reply _ ht =>
    refine .of_turn rfl rfl ht rfl (across_singleton ..) ?_ (across_singleton ..)
      (clearancesOf_notes id c)
    rw [documentsOf_returned, across_singleton]
    exact List.append_nil _
  | @finished id p c s reply _ hclose ht =>
    -- a call that returns closed documents is made to clear them
    have hnone : reply.isClosing = false := by
      cases hr : reply.isClosing with
      | false => rfl
      | true =>
        obtain ⟨p', hp', rfl⟩ := hsuits _ (List.mem_singleton.2 rfl)
        rw [ht.purpose?_of_isClosing hr] at hp'
        cases hp'
        rw [hclose rfl] at hr
        cases hr
    refine .of_turn rfl rfl ht rfl rfl ?_ (Reply.documents_of_not_closing hnone).symm
      (clearancesOf_notes id c)
    rw [documentsOf_returned]
    exact List.append_nil _
  | @committed id e c s reply ht =>
    have hnone : reply.isClosing = false := by
      cases hr : reply.isClosing with
      | false => rfl
      | true =>
        have hp' : c.purpose? = none := hsuits _ (List.mem_singleton.2 rfl)
        rw [ht.purpose?_of_isClosing hr] at hp'
        cases hp'
    refine .of_turn rfl rfl ht rfl rfl ?_ (Reply.documents_of_not_closing hnone).symm
      (clearancesOf_notes id c)
    rw [documentsOf_returned]
    exact List.append_nil _

/-- The data of a sealed document stays. -/
theorem Sealed.dataOf {w w' : Workspace} {k : Nat} (h : Sealed w k)
    (hk : k < w.store.slots.length) (hm : Moved w w') : w'.store.dataOf k = w.store.dataOf k := by
  cases hm with
  | aside hs => rw [hs]
  | invoked _ _ _ _ _ _ hs => rw [hs]
  | cancelled _ _ hs => rw [hs]; rfl
  | turned id c t hcall ht hs =>
    cases ht.dataStep hs with
    | same hsame => exact hsame k
    | tracked _ _ _ _ _ _ hs' => rw [hs', Store.dataOf_withSlot, if_neg (by omega)]
    | replaced j d content version hc hd hs' =>
      subst hc
      have hne : k ≠ j := by
        rintro rfl
        cases h.2 id _ hcall rfl
      rw [hs', Store.dataOf_replace hd, if_neg hne]
    | recorded j report hc hs' =>
      subst hc
      have hne : k ≠ j := by
        rintro rfl
        cases h.2 id _ hcall rfl
      rw [hs', Store.dataOf_record, if_neg hne]

/-- Each document is in the table, about to be closed by one call, or one of the closed ones `ks`;
and of the closed ones, each is returned once and taken back once, or will be. -/
structure Accounted (w : Workspace) (ks : List Nat) : Prop where
  slots : (List.range w.store.slots.length).Perm
    (w.store.table.map Prod.snd ++ (across Task.removes w.tasks ++ ks))
  returned : (documentsOf w.history ++ across Task.gathered w.tasks).Perm
    (ks.filterMap w.store.closing)
  cleared : (clearancesOf w.history ++ (across Task.holds w.tasks).map Closed.notice).Perm
    ((ks.filterMap w.store.closing).map Closed.notice)

theorem accounted_fresh (lifetime : Scope) : Accounted (fresh lifetime) [] :=
  ⟨.refl _, .refl _, .refl _⟩

section Accounted

variable {w w' : Workspace} {ks : List Nat} {a : Action}

theorem Accounted.nodup (h : Accounted w ks) :
    (w.store.table.map Prod.snd ++ (across Task.removes w.tasks ++ ks)).Nodup :=
  h.slots.nodup_iff.1 List.nodup_range

theorem Accounted.lt (h : Accounted w ks) {k : Nat} (hk : k ∈ ks) : k < w.store.slots.length := by
  rw [← List.mem_range, h.slots.mem_iff]
  exact List.mem_append_right _ (List.mem_append_right _ hk)

/-- Closed documents are sealed. -/
theorem Accounted.sealed (h : Accounted w ks) (hwd : Withdrawn w) (hd : Discerned w) {k : Nat}
    (hk : k ∈ ks) : Sealed w k := by
  have hnodup := h.nodup
  rw [List.nodup_append, List.nodup_append] at hnodup
  obtain ⟨_, ⟨_, _, hremoves⟩, htable⟩ := hnodup
  rcases hwd.kept k (h.lt hk) with ⟨uri, hmem⟩ | ⟨id, c, hc, hmem⟩ | hseal
  · exact absurd rfl (htable k (List.mem_map.2 ⟨_, hmem, rfl⟩) k (List.mem_append_right _ hk))
  · obtain ⟨t, ht, hcall⟩ := hd.mem_of_callAt hc
    have hremoves' : k ∈ t.removes := by
      rw [Task.removes, hcall]
      exact hmem
    exact absurd rfl (hremoves k (mem_across.2 ⟨_, ht, hremoves'⟩) k hk)
  · exact hseal

/-- What is known of closed documents stays as it is. -/
theorem Accounted.closing (h : Accounted w ks) (hwd : Withdrawn w) (hd : Discerned w)
    (hm : Moved w w') : ks.filterMap w'.store.closing = ks.filterMap w.store.closing := by
  refine List.filterMap_congr fun k hk => ?_
  rw [Store.closing, Store.closing, (h.sealed hwd hd hk).dataOf (h.lt hk) hm]

theorem documentsOf_append (es history : List Event) :
    documentsOf (es ++ history) = documentsOf es ++ documentsOf history := by
  simp [documentsOf]

theorem clearancesOf_append (es history : List Event) :
    clearancesOf (es ++ history) = clearancesOf es ++ clearancesOf history := by
  simp [clearancesOf]

/-- A turn of a call: what it closes moves from the slots that are about to be closed to the closed
ones, and what it returns was gathered or is just closed. -/
theorem Accounted.turned (h : Accounted w ks) {before after : List (Nat × Task)} {es : List Event}
    {ns : List Notice} (traded : Traded w w' before after es ns) {c : Call} {t : Turn}
    {new closed : List Nat} (hbooked : Turned.Booked w.store w'.store c t new closed)
    (hclosing : ks.filterMap w'.store.closing = ks.filterMap w.store.closing)
    (hbefore : across Task.removes before = c.removes)
    (hafter : across Task.removes after = t.removes)
    (hgathered : across Task.gathered before = c.gathered)
    (hdocuments : documentsOf es ++ across Task.gathered after = t.documents)
    (hheld : across Task.holds before = c.gathered) (hheld' : across Task.holds after = t.documents)
    (hclearances : clearancesOf es = []) : Accounted w' (closed ++ ks) := by
  obtain ⟨removes, hr, hr'⟩ := traded.across Task.removes
  obtain ⟨gathered, hg, hg'⟩ := traded.across Task.gathered
  obtain ⟨held, hh, hh'⟩ := traded.across Task.holds
  rw [hbefore] at hr
  rw [hafter] at hr'
  rw [hgathered] at hg
  rw [hheld] at hh
  rw [hheld', hbooked.documents] at hh'
  refine ⟨?_, ?_, ?_⟩
  · rw [hbooked.range, List.perm_iff_count]
    intro k
    have hslots := h.slots.count_eq k
    have hbook := hbooked.slots.count_eq k
    have hbefore' := hr.count_eq k
    have hafter' := hr'.count_eq k
    simp only [List.count_append] at *
    omega
  · rw [traded.history, documentsOf_append, List.filterMap_append, hclosing, List.perm_iff_count]
    intro d
    have hreturned := h.returned.count_eq d
    have hbefore' := hg.count_eq d
    have hafter' := hg'.count_eq d
    have hbook := congrArg (List.count d) (hdocuments.trans hbooked.documents)
    simp only [List.count_append] at *
    omega
  · rw [traded.history, clearancesOf_append, hclearances, List.nil_append, List.filterMap_append,
      List.map_append, hclosing, List.perm_iff_count]
    intro n
    have hcleared := h.cleared.count_eq n
    have hbefore' := (hh.map Closed.notice).count_eq n
    have hafter' := (hh'.map Closed.notice).count_eq n
    simp only [List.map_append, List.count_append] at *
    omega

/-- A step that closes nothing. What it tells the client to forget, it does not hold any more. -/
theorem Accounted.aside (h : Accounted w ks) {before after : List (Nat × Task)} {es : List Event}
    {ns : List Notice} (traded : Traded w w' before after es ns)
    (hslots : w'.store.slots = w.store.slots) (htable : w'.store.table = w.store.table)
    (hremoves : across Task.removes after = across Task.removes before)
    (hgathered : across Task.gathered after = across Task.gathered before)
    (hdocuments : documentsOf es = [])
    (hheld : (across Task.holds before).map Closed.notice
      = clearancesOf es ++ (across Task.holds after).map Closed.notice) : Accounted w' ks := by
  obtain ⟨removes, hr, hr'⟩ := traded.across Task.removes
  obtain ⟨gathered, hg, hg'⟩ := traded.across Task.gathered
  obtain ⟨held, hh, hh'⟩ := traded.across Task.holds
  rw [hremoves] at hr'
  rw [hgathered] at hg'
  have hclosing : w'.store.closing = w.store.closing := by
    funext k
    rw [Store.closing, Store.closing, Store.dataOf, Store.dataOf, hslots]
  refine ⟨?_, ?_, ?_⟩
  · rw [hslots, htable]
    exact h.slots.trans (((hr.trans hr'.symm).append_right _).append_left _)
  · rw [traded.history, documentsOf_append, hdocuments, List.nil_append, hclosing]
    exact ((hg'.trans hg.symm).append_left _).trans h.returned
  · rw [traded.history, clearancesOf_append, hclosing, List.perm_iff_count]
    intro n
    have hcleared := h.cleared.count_eq n
    have hbefore' := (hh.map Closed.notice).count_eq n
    have hafter' := (hh'.map Closed.notice).count_eq n
    have hsent := congrArg (List.count n) hheld
    simp only [List.map_append, List.count_append] at *
    omega

/-- Every step of a session keeps the account. -/
theorem Accounted.step (h : Accounted w ks) (hw : Sound w) (hwd : Withdrawn w) (hd : Discerned w)
    (hsuited : Suited Eq w) (ha : w.Handles a) (hm : Moved w w') (hs : Stepped w a w') :
    ∃ ks', Accounted w' ks' := by
  obtain ⟨taskStep, traded⟩ := hs
  cases taskStep.balanced (fun x hx => hsuited x (traded.mem_before hx)) ha with
  | quiet hslots htable hr hg hh hdoc hclear =>
    exact ⟨ks, h.aside traded hslots htable hr hg hdoc (by rw [hclear, hh]; rfl)⟩
  | clearSent d hstore hr hg hh hdoc hclear =>
    refine ⟨ks, h.aside traded (by rw [hstore]) (by rw [hstore]) hr hg hdoc ?_⟩
    rw [hclear, hh]
    rfl
  | turned id c t hmem ht hstore hbefore hafter hg hdoc hh hh' hclear =>
    obtain ⟨task, hmem, hcall⟩ := hmem
    have hc : w.callAt id = some c := (hd.callAt (traded.mem_before hmem)).trans hcall
    obtain ⟨r, _, hserve⟩ := hw.staged.calls id c hc
    obtain ⟨new, closed, hbooked⟩ := ht.booked hstore hserve.ne_find_close hwd.unique
      (List.nodup_append.1 h.nodup).1
    exact ⟨closed ++ ks, h.turned traded hbooked (h.closing hwd hd hm) hbefore hafter hg hdoc hh hh'
      hclear⟩

end Accounted

theorem Goes.accounted {lifetime : Scope} {w : Workspace} (h : Goes Handles (fresh lifetime) w) :
    ∃ ks, Accounted w ks := by
  induction h with
  | refl => exact ⟨[], accounted_fresh lifetime⟩
  | step h a ha ih =>
    obtain ⟨ks, hks⟩ := ih
    have hr := h.handled
    have hw := hr.sound (sound_fresh lifetime)
    exact hks.step hw hr.withdrawn hr.discerned h.suited ha (hw.step ha.admits).2
      (hr.discerned.stepped a)

/-! ## Requests and their replies -/

/-- The request that a call was made with. -/
def requestOf (history : List Event) (id : Nat) : Option Request :=
  history.findSome? fun
    | .invoked j q => if j = id then some q else none
    | _ => none

/-- The requests that were replied to with their replies, the latest first. -/
def answersOf : List Event → List (Request × Reply)
  | [] => []
  | .returned id reply :: history =>
    ((requestOf history id).map fun q => (q, reply)).toList ++ answersOf history
  | _ :: history => answersOf history

theorem invoked_of_requestOf {history : List Event} {id : Nat} {q : Request}
    (h : requestOf history id = some q) : Event.invoked id q ∈ history := by
  obtain ⟨x, hx, hsome⟩ := List.exists_of_findSome?_eq_some h
  cases x with
  | invoked j q' =>
    simp only at hsome
    split at hsome
    · rename_i hj
      subst hj
      cases hsome
      exact hx
    · cases hsome
  | _ => cases hsome

theorem requestOf_eq {w : Workspace} (h : Once w) {id : Nat} {q : Request}
    (hq : Event.invoked id q ∈ w.history) : requestOf w.history id = some q := by
  cases hr : requestOf w.history id with
  | none =>
    have hnone := List.findSome?_eq_none_iff.1 hr _ hq
    simp at hnone
  | some q' => rw [h id q q' hq (invoked_of_requestOf hr)]

theorem requestOf_append {es : List Event} (h : ∀ j q, Event.invoked j q ∉ es)
    (history : List Event) (id : Nat) : requestOf (es ++ history) id = requestOf history id := by
  rw [requestOf, List.findSome?_append, List.findSome?_eq_none_iff.2]
  · rfl
  · intro x hx
    cases x with
    | invoked j q => exact absurd hx (h j q)
    | _ => rfl

theorem answersOf_append {es : List Event} (h : ∀ j r, Event.returned j r ∉ es)
    (history : List Event) : answersOf (es ++ history) = answersOf history := by
  induction es with
  | nil => rfl
  | cons x es ih =>
    have hrest := ih fun j r hm => h j r (List.mem_cons_of_mem _ hm)
    cases x with
    | returned j r => exact absurd (List.mem_cons_self ..) (h j r)
    | _ => exact hrest

theorem mem_answersOf {history : List Event} {q : Request} {reply : Reply}
    (h : (q, reply) ∈ answersOf history) : ∃ id, Event.invoked id q ∈ history := by
  induction history with
  | nil => cases h
  | cons x history ih =>
    have hrest : (q, reply) ∈ answersOf history → ∃ id, Event.invoked id q ∈ x :: history := by
      intro hm
      obtain ⟨id, hid⟩ := ih hm
      exact ⟨id, List.mem_cons_of_mem _ hid⟩
    cases x with
    | returned id r =>
      rcases List.mem_append.1 h with hm | hm
      · obtain ⟨q', hq', heq⟩ := Option.map_eq_some_iff.1 (Option.mem_toList.1 hm)
        cases heq
        exact ⟨id, List.mem_cons_of_mem _ (invoked_of_requestOf hq')⟩
      · exact hrest hm
    | _ => exact hrest h

/-- A step leaves the data and the replies as they are, or it is the last turn of a call. -/
inductive Answered (w w' : Workspace) : Prop
  | quiet (hdata : ∀ k, w'.store.dataOf k = w.store.dataOf k)
      (hsame : answersOf w'.history = answersOf w.history)
  | replied (id : Nat) (c : Call) (q : Request) (reply : Reply) (hcall : w.callAt id = some c)
      (hq : Event.invoked id q ∈ w.history) (hserve : Serves w.store q c)
      (ht : Turned w.store id c (.done w'.store reply))
      (hnew : answersOf w'.history = (q, reply) :: answersOf w.history)

theorem Moved.answered {w w' : Workspace} (h : Moved w w') (hw : Sound w) (honce : Once w) :
    Answered w w' := by
  cases h with
  | aside hs _ es hes hh =>
    refine .quiet (fun k => by rw [hs]) ?_
    rw [hh, answersOf_append fun j r hm => by cases hes _ hm]
  | invoked id q _ _ _ _ hs _ hh => exact .quiet (fun k => by rw [hs]) (by rw [hh]; rfl)
  | cancelled scope _ hs _ hh => exact .quiet (fun k => by rw [hs]; rfl) (by rw [hh]; rfl)
  | turned id c t hcall ht hs _ es hes hh =>
    have hnotes := answersOf_append (fun j r => returned_notin_notes id j c r) w.history
    have haside : answersOf w'.history
        = answersOf (t.replies id ++ (c.notes id ++ w.history)) := by
      rw [hh, answersOf_append fun j r hm => by cases hes _ hm]
    cases t with
    | blocked => cases hs
    | next s c' =>
      cases hs
      exact .quiet ht.dataOf_next (haside.trans hnotes)
    | done s reply =>
      cases hs
      obtain ⟨q, hq, hserve⟩ := hw.staged.calls id c hcall
      refine .replied id c q reply hcall hq hserve ht (haside.trans ?_)
      have hrequest : requestOf (c.notes id ++ w.history) id = some q := by
        rw [requestOf_append (fun j r => invoked_notin_notes id j c r), requestOf_eq honce hq]
      simp [Turn.replies, answersOf, hrequest, hnotes]

/-- The document of a slot has the name. -/
def named (s : Store) (uri : Uri) (k : Nat) : Bool := (s.dataOf k).any fun d => d.uri = uri

/-- A document with the name was opened. -/
def opens (uri : Uri) : Request × Reply → Bool
  | (.track u _ _, .opened _) => u = uri
  | _ => false

/-- What the replies say about the documents there are: each comes from one opening, and is
published if a commit has succeeded on it. -/
structure Attested (w : Workspace) : Prop where
  opened : ∀ uri, (answersOf w.history).countP (opens uri)
    = (List.range w.store.slots.length).countP (named w.store uri)
  published : ∀ k d, w.store.dataOf k = some d → (d.published = true ↔
    ∃ e r, (Request.commit e r, Reply.committed) ∈ answersOf w.history ∧ e.slot = k)

theorem attested_fresh (lifetime : Scope) : Attested (fresh lifetime) where
  opened := by simp [fresh, answersOf]
  published := by simp [fresh, Store.dataOf]

section Attested

variable {w w' : Workspace}

theorem length_eq_of_dataOf {s s' : Store}
    (h : ∀ k, (s'.dataOf k).isSome = (s.dataOf k).isSome) : s'.slots.length = s.slots.length := by
  have hlt : ∀ k, k < s'.slots.length ↔ k < s.slots.length := by
    intro k
    rw [← Store.dataOf_isSome_iff, ← Store.dataOf_isSome_iff, h]
  have h1 := hlt s.slots.length
  have h2 := hlt s'.slots.length
  omega

/-- Names stay, so that the count of a name changes only by an opening. -/
theorem countP_named {s s' : Store}
    (h : ∀ k, (s'.dataOf k).map Slot.uri = (s.dataOf k).map Slot.uri) (uri : Uri) :
    (List.range s'.slots.length).countP (named s' uri)
      = (List.range s.slots.length).countP (named s uri) := by
  have hsome : ∀ k, (s'.dataOf k).isSome = (s.dataOf k).isSome := by
    intro k
    have := congrArg Option.isSome (h k)
    simpa using this
  have hnamed : named s' uri = named s uri := by
    funext k
    have hany : ∀ o : Option Slot, (o.any fun d => d.uri = uri)
        = (o.map Slot.uri).any fun u => u = uri := fun o => by cases o <;> rfl
    rw [named, named, hany, hany, h]
  rw [length_eq_of_dataOf hsome, hnamed]

theorem countP_named_withSlot (s : Store) (u : Uri) (content : String) (version : Int) (uri : Uri) :
    (List.range (s.withSlot u content version).slots.length).countP
        (named (s.withSlot u content version) uri)
      = (List.range s.slots.length).countP (named s uri) + if u = uri then 1 else 0 := by
  have hlen : (s.withSlot u content version).slots.length = s.slots.length + 1 := by
    simp [Store.withSlot]
  have hold : (List.range s.slots.length).countP (named (s.withSlot u content version) uri)
      = (List.range s.slots.length).countP (named s uri) := by
    refine List.countP_congr fun k hk => ?_
    have := List.mem_range.1 hk
    rw [named, named, Store.dataOf_withSlot, if_neg (by omega)]
  have hnew : named (s.withSlot u content version) uri s.slots.length = decide (u = uri) := by
    rw [named, Store.dataOf_withSlot, if_pos rfl]
    rfl
  rw [hlen, List.range_succ, List.countP_append, hold, List.countP_singleton, hnew]
  simp

theorem opens_of_ne {uri : Uri} {q : Request} {reply : Reply} (h : ∀ e, reply ≠ .opened e) :
    opens uri (q, reply) = false := by
  unfold opens
  split
  · rename_i heq
    cases heq
    exact absurd rfl (h _)
  · rfl

theorem Attested.opened_step (h : Attested w) (hm : Answered w w') (uri : Uri) :
    (answersOf w'.history).countP (opens uri)
      = (List.range w'.store.slots.length).countP (named w'.store uri) := by
  cases hm with
  | quiet hdata hsame =>
    rw [hsame, h.opened, countP_named fun k => by rw [hdata]]
  | replied id c q reply hcall hq hserve ht hnew =>
    -- a reply that opens nothing, on documents that keep their names
    have hsame : ∀ s', opens uri (q, reply) = false →
        (∀ k, (s'.dataOf k).map Slot.uri = (w.store.dataOf k).map Slot.uri) →
        (List.range w.store.slots.length).countP (named w.store uri)
          + (if opens uri (q, reply) = true then 1 else 0)
          = (List.range s'.slots.length).countP (named s' uri) := by
      intro s' hopens hnames
      rw [hopens, countP_named hnames]
      rfl
    rw [hnew, List.countP_cons, h.opened]
    generalize w'.store = s' at ht
    cases ht with
    | answered _ _ hr => exact hsame _ (opens_of_ne (Reply.ne_opened_of_isBrief hr)) fun _ => rfl
    | left _ _ hr => exact hsame _ (opens_of_ne hr) fun k => by rw [Store.dataOf_release]
    | collected => exact hsame _ (opens_of_ne nofun) fun _ => rfl
    | ended =>
      refine hsame _ (opens_of_ne nofun) fun k => ?_
      rw [Store.dataOf_record]
      split
      · rw [Option.map_map]
        rfl
      · rfl
    | replaced hd =>
      have hheld := (Store.held_eq_some_iff.1 hd).1
      have hopens : ∀ e, opens uri (q, .opened e) = false := by
        cases hserve with
        | start hc => cases q <;> cases hc
        | replace => exact fun _ => rfl
      refine hsame _ (hopens _) fun k => ?_
      rw [Store.dataOf_replace hheld]
      split
      · rename_i hk
        rw [hk, Store.dataOf_eq hheld]
        rfl
      · rfl
    | @tracked u content version =>
      obtain rfl : q = .track u content version := by
        cases hserve with
        | start hc =>
          cases q <;> cases hc
          rfl
      rw [countP_named_withSlot]
      simp [opens]

theorem Attested.published_step (h : Attested w) (hw : Sound w) (hm : Answered w w') {k : Nat}
    {d : Slot} (hd : w'.store.dataOf k = some d) : d.published = true ↔
      ∃ e r, (Request.commit e r, Reply.committed) ∈ answersOf w'.history ∧ e.slot = k := by
  cases hm with
  | quiet hdata hsame =>
    rw [hdata] at hd
    rw [hsame]
    exact h.published k d hd
  | replied id c q reply hcall hq hserve ht hnew =>
    -- what is not the success of a commit on this document says nothing about it
    have hmem : (∀ e r, e.slot = k → (q, reply) ≠ (.commit e r, .committed)) →
        ((∃ e r, (Request.commit e r, Reply.committed) ∈ answersOf w'.history ∧ e.slot = k) ↔
          ∃ e r, (Request.commit e r, Reply.committed) ∈ answersOf w.history ∧ e.slot = k) := by
      intro hne
      rw [hnew]
      constructor
      · rintro ⟨e, r, hm, hslot⟩
        exact ⟨e, r, (List.mem_cons.1 hm).resolve_left fun heq => hne e r hslot heq.symm, hslot⟩
      · rintro ⟨e, r, hm, hslot⟩
        exact ⟨e, r, List.mem_cons_of_mem _ hm, hslot⟩
    have hreply : reply ≠ .committed → ∀ e r, e.slot = k → (q, reply) ≠ (.commit e r, .committed) :=
      fun hne e r _ heq => hne (congrArg Prod.snd heq)
    generalize w'.store = s' at ht hd
    cases ht with
    | answered _ _ hr =>
      rw [hmem (hreply (by rintro rfl; cases hr))]
      exact h.published k d hd
    | left hheld hcheck =>
      rw [hmem (hreply (by rintro rfl; exact check_ne_committed hcheck))]
      rw [Store.dataOf_release] at hd
      exact h.published k d hd
    | collected =>
      rw [hmem (hreply nofun)]
      exact h.published k d hd
    | @replaced j d0 content version hheld =>
      have hslot := (Store.held_eq_some_iff.1 hheld).1
      rw [hmem (hreply nofun)]
      rw [Store.dataOf_replace hslot] at hd
      split at hd
      · rename_i hk
        cases hd
        exact h.published k d0.data (by rw [hk, Store.dataOf_eq hslot])
      · exact h.published k d hd
    | @ended j report =>
      rw [Store.dataOf_record] at hd
      obtain ⟨e, rfl, hslot⟩ : ∃ e, q = .commit e report ∧ e.slot = j := by
        cases hserve with
        | start hc => cases q <;> cases hc
        | publishing => exact ⟨_, rfl, rfl⟩
      split at hd
      · rename_i hk
        obtain ⟨d0, _, rfl⟩ := Option.map_eq_some_iff.1 hd
        rw [hnew]
        exact iff_of_true rfl ⟨e, report, List.mem_cons_self .., hslot.trans hk.symm⟩
      · rename_i hk
        rw [hmem fun e' r hslot' heq => by cases heq; exact hk (hslot'.symm.trans hslot)]
        exact h.published k d hd
    | tracked =>
      rw [hmem (hreply nofun)]
      rw [Store.dataOf_withSlot] at hd
      split at hd
      · -- there is no commit on a document that is not there yet
        rename_i hk
        cases hd
        refine iff_of_false nofun ?_
        rintro ⟨e, r, hm, hslot⟩
        obtain ⟨j, hj⟩ := mem_answersOf hm
        obtain ⟨d', hd', _⟩ := hw.staged.editions e (hw.staged.commits j e r hj)
        have := Store.lt_of_dataOf hd'
        omega
      · exact h.published k d hd

theorem Attested.step (h : Attested w) (hw : Sound w) (honce : Once w) (hm : Moved w w') :
    Attested w' := by
  have hanswered := hm.answered hw honce
  exact ⟨h.opened_step hanswered, fun k d hd => h.published_step hw hanswered hd⟩

end Attested

theorem Reaches.attested {lifetime : Scope} {w : Workspace} (hr : Reaches (fresh lifetime) w) :
    Attested w := by
  suffices hall : Attested w ∧ Once w from hall.1
  refine hr.keeps (P := fun u => Attested u ∧ Once u) (sound_fresh lifetime)
    ⟨attested_fresh lifetime, (publishOrder_fresh lifetime).once⟩ ?_
  rintro u v hu - hm ⟨hattested, honce⟩
  exact ⟨hattested.step hu honce hm, honce.step hm⟩

/-! ## With nothing under way -/

/-- At most one tracked document has a name. -/
theorem Accounted.countP_table {w : Workspace} {ks : List Nat} (h : Accounted w ks) (hw : Sound w)
    (hwd : Withdrawn w) (uri : Uri) : (w.store.table.map Prod.snd).countP (named w.store uri)
      = if (w.store.lookup uri).isSome then 1 else 0 := by
  have hnamed : ∀ u k, (u, k) ∈ w.store.table → named w.store uri k = decide (u = uri) := by
    intro u k hk
    obtain ⟨d, hd, rfl⟩ := hw.staged.table u k hk
    rw [named, hd]
    rfl
  -- the documents of other names do not count
  have hothers : ∀ entries : List (Uri × Nat), (∀ x ∈ entries, x ∈ w.store.table ∧ x.1 ≠ uri) →
      (entries.map Prod.snd).countP (named w.store uri) = 0 := by
    intro entries hentries
    rw [List.countP_eq_zero]
    intro k hk
    obtain ⟨x, hx, rfl⟩ := List.mem_map.1 hk
    rw [hnamed x.1 x.2 (hentries x hx).1]
    simpa using (hentries x hx).2
  cases hlook : w.store.lookup uri with
  | none =>
    refine hothers _ fun x hx => ⟨hx, ?_⟩
    rintro rfl
    exact Store.lookup_eq_none_iff.1 hlook x.2 hx
  | some k =>
    have hk := Store.mem_table_of_lookup hlook
    have hperm := Store.perm_filter_table hlook (fun j hj => hwd.unique uri j k hj hk)
      (List.nodup_append.1 h.nodup).1
    rw [hperm.countP_eq, List.countP_cons, hothers, hnamed uri k hk]
    · simp
    · intro x hx
      obtain ⟨hx, hne⟩ := List.mem_filter.1 hx
      exact ⟨hx, by simpa using hne⟩

/-- The closed documents of a name. -/
theorem countP_closing (s : Store) (uri : Uri) (ks : List Nat) :
    (ks.filterMap s.closing).countP (fun d => d.uri = uri) = ks.countP (named s uri) := by
  rw [List.countP_filterMap]
  refine List.countP_congr fun k _ => ?_
  rw [Store.closing, named]
  cases s.dataOf k <;> simp [Slot.close]

section Rest

variable {lifetime : Scope} {w : Workspace} (h : Goes Handles (fresh lifetime) w)
  (hidle : w.tasks = [])

include h hidle

/-- Each document that is not tracked was returned once, and taken back once. -/
theorem Goes.closed_at_rest : ∃ ks, Accounted w ks ∧ ks.Nodup ∧
    (∀ k, k ∈ ks ↔ k < w.store.slots.length ∧ ¬ w.store.Tracked k) ∧
    (documentsOf w.history).Perm (ks.filterMap w.store.closing) ∧
    (clearancesOf w.history).Perm ((documentsOf w.history).map Closed.notice) := by
  obtain ⟨ks, hks⟩ := h.accounted
  have hslots := hks.slots
  have hreturned := hks.returned
  have hcleared := hks.cleared
  have hnodup := hks.nodup
  simp only [hidle, across_nil, List.nil_append, List.append_nil, List.map_nil] at *
  obtain ⟨_, hnodup', hdisjoint⟩ := List.nodup_append.1 hnodup
  refine ⟨ks, hks, hnodup', fun k => ?_, hreturned, hcleared.trans (hreturned.map _).symm⟩
  have hmem := hslots.mem_iff (a := k)
  rw [List.mem_range, List.mem_append] at hmem
  constructor
  · refine fun hk => ⟨hmem.2 (Or.inr hk), ?_⟩
    rintro ⟨uri, huri⟩
    exact hdisjoint k (List.mem_map.2 ⟨_, huri, rfl⟩) k hk rfl
  · rintro ⟨hlt, hnot⟩
    refine (hmem.1 hlt).resolve_left fun hk => ?_
    obtain ⟨x, hx, rfl⟩ := List.mem_map.1 hk
    exact hnot ⟨x.1, hx⟩

/-- How often a name was opened, returned as closed, and taken back. -/
theorem Goes.counts_at_rest (uri : Uri) :
    (documentsOf w.history).countP (fun d => d.uri = uri)
      = (clearancesOf w.history).countP (fun n => n.uri = uri) ∧
    (answersOf w.history).countP (opens uri)
      = (documentsOf w.history).countP (fun d => d.uri = uri)
        + if (w.store.lookup uri).isSome then 1 else 0 := by
  obtain ⟨ks, hks, _, _, hreturned, hcleared⟩ := h.closed_at_rest hidle
  have hr := h.handled
  have hw := hr.sound (sound_fresh lifetime)
  have hslots := hks.slots
  simp only [hidle, across_nil, List.nil_append] at hslots
  constructor
  · rw [hcleared.countP_eq, List.countP_map]
    rfl
  · rw [hr.attested.opened, hslots.countP_eq, List.countP_append, hks.countP_table hw hr.withdrawn,
      hreturned.countP_eq, countP_closing, Nat.add_comm]

end Rest

/-- What is known of a closed document: its last version, and whether a commit has succeeded. -/
theorem Reaches.closing_spec {lifetime : Scope} {w : Workspace} (hr : Reaches (fresh lifetime) w)
    {k : Nat} {d : Closed} (hd : w.store.closing k = some d) :
    (∃ e, w.latest k = some e ∧ d.uri = e.uri ∧ d.version = e.version) ∧
    (d.published = true ↔
      ∃ e r, (Request.commit e r, Reply.committed) ∈ answersOf w.history ∧ e.slot = k) := by
  obtain ⟨d0, hd0, rfl⟩ := Option.map_eq_some_iff.1 hd
  have hw := hr.sound (sound_fresh lifetime)
  refine ⟨?_, hr.attested.published k d0 hd0⟩
  obtain ⟨e, he, _⟩ := hr.pruned.latest k d0 hd0
  obtain ⟨hout, rfl⟩ := handedOut_of_latest he
  obtain ⟨d1, n, hd1, hrev⟩ := hw.dated.edition e hout
  obtain ⟨d2, hd2, huri⟩ := hw.staged.editions e hout
  rw [hd0] at hd1 hd2
  cases hd1
  cases hd2
  have hn := (hr.pruned.latest_iff hw hout hd0 hrev).1 he
  obtain ⟨_, ⟨hlt, _⟩ | ⟨_, hversion, _⟩⟩ := hrev
  · omega
  · exact ⟨e, he, huri, hversion.symm⟩

end Workspace

end PromqlServer.Document
