import PromqlServer.Proofs.Document.Liveness
import PromqlServer.Proofs.Document.Sequential

/-!
The operations of a document cache at the same time come to what they come to one after the other.
The order is built along a run. A call gets its place in it when it takes effect: most of them in
their last stretch, a `commit` when its publish begins, a `close` or a `shutdown` when it takes
slots out of the table. The calls that wait for such a slot have lost it then, and come right after.
-/

namespace PromqlServer.Document

/-- A call with its place in the order: what was asked, and what it gets. -/
structure Entry where
  id : Nat
  request : Request
  reply : Reply
  deriving DecidableEq, Repr

/-- Work that fails if the document was closed. -/
def Work.expires : Work → Bool
  | .change .. | .version | .snapshot => true
  | _ => false

/-- What a call under way will return, if it has its place in the order. The store is the one in
which all calls with a place are done. -/
def Store.promise (s : Store) : Call → Option Reply
  | .publishing _ _ => some .committed
  | .queued k .close => (s.slots[k]?).map fun d => .closed d.close
  | .queued k work =>
    if work.expires && s.isCancelled (s.slotScope k) then
      (s.slots[k]?).map fun d => .failed (.expired d.uri)
    else none
  | .collecting k ks closed => some (.drained (closed ++ s.closeAll (k :: ks)))
  | _ => none

theorem Store.promise_expires {s : Store} {k : Nat} {work : Work} (h : work.expires = true) :
    s.promise (.queued k work) = if s.isCancelled (s.slotScope k) then
      (s.slots[k]?).map fun d => .failed (.expired d.uri) else none := by
  cases work <;> simp_all [promise, Work.expires]

theorem Store.closeAll_congr {s s' : Store} {ks : List Nat}
    (h : ∀ k ∈ ks, s'.slots[k]? = s.slots[k]?) : s'.closeAll ks = s.closeAll ks := by
  induction ks with
  | nil => rfl
  | cons k ks ih =>
    have hk := h k (List.mem_cons_self ..)
    have hks := ih fun j hj => h j (List.mem_cons_of_mem _ hj)
    unfold closeAll at hks ⊢
    rw [List.filterMap_cons, List.filterMap_cons, hk, hks]

/-- A promise is about the documents that the call has taken out of the table, and about whether the
one that it waits for was closed. -/
theorem Store.promise_congr {s s' : Store} {c : Call}
    (hremoves : ∀ k ∈ c.removes, s'.slots[k]? = s.slots[k]?)
    (hwaits : ∀ k work, c = .queued k work → work.expires = true →
      s'.isCancelled (s'.slotScope k) = s.isCancelled (s.slotScope k) ∧
      (s'.slots[k]?).map Slot.uri = (s.slots[k]?).map Slot.uri) :
    s'.promise c = s.promise c := by
  cases c with
  | queued k work =>
    by_cases hw : work.expires = true
    · obtain ⟨hc, hu⟩ := hwaits k work rfl hw
      have hmap : (s'.slots[k]?).map (fun d => Reply.failed (.expired d.uri))
          = (s.slots[k]?).map fun d => Reply.failed (.expired d.uri) := by
        have := congrArg (Option.map fun uri => Reply.failed (.expired uri)) hu
        rwa [Option.map_map, Option.map_map] at this
      rw [promise_expires hw, promise_expires hw, hc, hmap]
    · cases work with
      | close => rw [promise, promise, hremoves k (List.mem_singleton.2 rfl)]
      | commit e report => rfl
      | _ => exact absurd rfl hw
  | collecting k ks closed =>
    have hclose : s'.closeAll (k :: ks) = s.closeAll (k :: ks) := closeAll_congr hremoves
    rw [promise, promise, hclose]
  | _ => rfl

namespace Workspace

/-- The store with all calls done that have their place in the order: it has no queues, and the
publications under way are recorded. -/
structure Mirrors (w : Workspace) (s : Store) : Prop where
  lifetime : s.lifetime = w.store.lifetime
  cancelled : s.cancelled = w.store.cancelled
  table : s.table = w.store.table
  length : s.slots.length = w.store.slots.length
  slots : ∀ k d, w.store.dataOf k = some d →
    (s.slots[k]? = some d ∧ ∀ id r, w.callAt id ≠ some (.publishing k r)) ∨
      ∃ id r, w.callAt id = some (.publishing k r) ∧ s.slots[k]? = some (d.recorded r)

/-- An order of the calls up to now. -/
structure Linear (lifetime : Scope) (w : Workspace) (s : Store) (order : List Entry) : Prop where
  replays : Replays { lifetime } (order.map fun x => (x.request, x.reply)) s
  mirrors : Mirrors w s
  nodup : (order.map Entry.id).Nodup
  invoked : ∀ x ∈ order, Event.invoked x.id x.request ∈ w.history
  returned : ∀ id reply, Event.returned id reply ∈ w.history →
    ∃ x ∈ order, x.id = id ∧ x.reply = reply
  promised : ∀ id c reply, w.callAt id = some c → s.promise c = some reply →
    ∃ x ∈ order, x.id = id ∧ x.reply = reply
  counted : ∀ id c, w.callAt id = some c → ∀ x ∈ order, x.id = id → s.promise c = some x.reply
  realtime : order.Pairwise fun a b =>
    ∀ reply q, ¬ Precedes w.history (.returned b.id reply) (.invoked a.id q)

theorem linear_fresh (lifetime : Scope) : Linear lifetime (fresh lifetime) { lifetime } [] where
  replays := .nil
  mirrors := ⟨rfl, rfl, rfl, rfl, by simp [fresh, Store.dataOf]⟩
  nodup := List.Pairwise.nil
  invoked := by simp
  returned := by simp [fresh]
  promised := by simp [fresh, callAt, task?]
  counted := by simp
  realtime := List.Pairwise.nil

theorem precedes_invoked {es h : List Event} {id : Nat} {a : Event}
    {q : Request} (hes : Event.invoked id q ∉ es) (hp : Precedes (es ++ h) a (.invoked id q)) :
    Precedes h a (.invoked id q) := by
  rcases precedes_append.1 hp with hp | ⟨hm, _⟩ | hp
  · exact absurd hp.mem_right hes
  · exact absurd hm hes
  · exact hp

/-- A stretch in which no call gets its place. -/
theorem Linear.keep {lifetime : Scope} {w w' : Workspace} {s : Store} {order : List Entry}
    (h : Linear lifetime w s order) {id : Nat} {c : Call} {t : Turn} (hcall : w.callAt id = some c)
    (hs : StretchTaken w w' id t) (hmirrors : Mirrors w' s)
    (hnext : ∀ c', t.call? = some c' → s.promise c' = s.promise c)
    (hdone : ∀ u r, t = .done u r → s.promise c = some r) : Linear lifetime w' s order := by
  obtain ⟨es, hh, hinv, hret, _⟩ := hs.events
  -- what is under way after the stretch has the promise of what was under way before it
  have hcalls : ∀ j c', w'.callAt j = some c' →
      ∃ c0, w.callAt j = some c0 ∧ s.promise c' = s.promise c0 := by
    intro j c' hj
    rw [hs.calls] at hj
    split at hj
    · rename_i hji
      exact ⟨c, by rw [hji, hcall], hnext c' hj⟩
    · exact ⟨c', hj, rfl⟩
  refine ⟨h.replays, hmirrors, h.nodup, fun x hx => ?_, fun j reply hm => ?_,
    fun j c' reply hj hp => ?_, fun j c' hj x hx hxj => ?_, ?_⟩
  · rw [hh]
    exact List.mem_append_right _ (h.invoked x hx)
  · rw [hh, List.mem_append, hret] at hm
    rcases hm with ⟨rfl, u, ht⟩ | hm
    · exact h.promised j c reply hcall (hdone u reply ht)
    · exact h.returned j reply hm
  · obtain ⟨c0, hc0, heq⟩ := hcalls j c' hj
    exact h.promised j c0 reply hc0 (heq ▸ hp)
  · obtain ⟨c0, hc0, heq⟩ := hcalls j c' hj
    rw [heq]
    exact h.counted j c0 hc0 x hx hxj
  · refine h.realtime.imp fun {a b} hab reply q hp => ?_
    rw [hh] at hp
    exact hab reply q (precedes_invoked (hinv a.id q) hp)

theorem exists_list {α β : Type} {f : α → β} {P : α → Prop} {bs : List β}
    (h : ∀ b ∈ bs, ∃ a, f a = b ∧ P a) : ∃ as : List α, as.map f = bs ∧ ∀ a ∈ as, P a := by
  induction bs with
  | nil => exact ⟨[], rfl, by simp⟩
  | cons b bs ih =>
    obtain ⟨a, rfl, ha⟩ := h b (List.mem_cons_self ..)
    obtain ⟨as, rfl, has⟩ := ih fun b' hb' => h b' (List.mem_cons_of_mem _ hb')
    exact ⟨a :: as, rfl, by simpa using ⟨ha, has⟩⟩

/-- A call that has lost its document: it gets its place right after the one that closed it. -/
structure Expires (w : Workspace) (s s' : Store) (x : Entry) : Prop where
  pending : ∃ c, w.callAt x.id = some c ∧ s.promise c = none ∧ s'.promise c = some x.reply
  invoked : Event.invoked x.id x.request ∈ w.history
  accepts : s'.Accepts x.request
  performs : s'.perform x.request = (s', x.reply)

theorem replays_expired {s s' : Store} {w : Workspace} {xs : List (Request × Reply)} {s0 : Store}
    (h : Replays s0 xs s') {lost : List Entry} (hlost : ∀ x ∈ lost, Expires w s s' x) :
    Replays s0 (xs ++ lost.map fun x => (x.request, x.reply)) s' := by
  induction lost generalizing xs with
  | nil => simpa using h
  | cons x lost ih =>
    have hx := hlost x (List.mem_cons_self ..)
    have hnext := ih (h.concat hx.accepts hx.performs) fun y hy =>
      hlost y (List.mem_cons_of_mem _ hy)
    simpa using hnext

/-- All calls but `id` that have lost their document. -/
structure Losses (w : Workspace) (s s' : Store) (id : Nat) (lost : List Entry) : Prop where
  nodup : (lost.map Entry.id).Nodup
  others : ∀ x ∈ lost, x.id ≠ id
  expires : ∀ x ∈ lost, Expires w s s' x
  all : ∀ j c, j ≠ id → w.callAt j = some c → s'.promise c = s.promise c ∨ ∃ x ∈ lost, x.id = j

theorem exists_losses {w : Workspace} (hw : Sound w) {s s' : Store} {id : Nat}
    (hothers : ∀ j c, j ≠ id → w.callAt j = some c → s'.promise c = s.promise c ∨
      ∃ x : Entry, x.id = j ∧ Expires w s s' x) : ∃ lost, Losses w s s' id lost := by
  -- the calls whose promise has changed, by their numbers
  obtain ⟨js, hjs⟩ : ∃ js, js = (List.range w.started).filter fun j =>
    j ≠ id ∧ (w.callAt j).bind s'.promise ≠ (w.callAt j).bind s.promise := ⟨_, rfl⟩
  have hmem : ∀ {j c}, w.callAt j = some c → (j ∈ js ↔ j ≠ id ∧ s'.promise c ≠ s.promise c) := by
    intro j c hj
    have hlt := hw.tidy.lt_started hj
    simp [hjs, hj, hlt]
  obtain ⟨lost, hids, hlost⟩ : ∃ lost : List Entry, lost.map Entry.id = js ∧
      ∀ x ∈ lost, Expires w s s' x := by
    refine exists_list fun j hj => ?_
    cases hc : w.callAt j with
    | none => simp [hjs, hc] at hj
    | some c =>
      obtain ⟨hne, hdiff⟩ := (hmem hc).1 hj
      exact (hothers j c hne hc).resolve_left hdiff
  refine ⟨lost, ?_, fun x hx => ?_, hlost, fun j c hne hc => ?_⟩
  · rw [hids, hjs]
    exact List.nodup_range.filter _
  · obtain ⟨c, hc, _⟩ := (hlost x hx).pending
    have hj : x.id ∈ js := hids ▸ List.mem_map.2 ⟨x, hx, rfl⟩
    exact ((hmem hc).1 hj).1
  · by_cases hdiff : s'.promise c = s.promise c
    · exact Or.inl hdiff
    · have hj : j ∈ lost.map Entry.id := hids ▸ (hmem hc).2 ⟨hne, hdiff⟩
      obtain ⟨x, hx, hxj⟩ := List.mem_map.1 hj
      exact Or.inr ⟨x, hx, hxj⟩

section Extend

variable {lifetime : Scope} {w w' : Workspace} {s s' : Store} {order lost : List Entry} {id : Nat}
  {c : Call} {t : Turn} {request : Request} {reply : Reply}

/-- The reply of a call that has lost its document. -/
theorem Losses.promise_eq (hl : Losses w s s' id lost) {x : Entry} (hx : x ∈ lost) {cx : Call}
    (hcx : w.callAt x.id = some cx) : s.promise cx = none ∧ s'.promise cx = some x.reply := by
  obtain ⟨c0, hc0, hnone, hsome⟩ := (hl.expires x hx).pending
  rw [hcx] at hc0
  cases hc0
  exact ⟨hnone, hsome⟩

/-- The calls that get their place had none before. -/
theorem Losses.fresh (hl : Losses w s s' id lost) (h : Linear lifetime w s order)
    (hcall : w.callAt id = some c) (hnew : s.promise c = none) :
    ∀ x ∈ order, ∀ y ∈ (⟨id, request, reply⟩ :: lost : List Entry), x.id ≠ y.id := by
  intro x hx y hy heq
  rcases List.mem_cons.1 hy with rfl | hy
  · have hcounted := h.counted id c hcall x hx heq
    rw [hnew] at hcounted
    cases hcounted
  · obtain ⟨cy, hcy, hnone, _⟩ := (hl.expires y hy).pending
    have hcounted := h.counted y.id cy hcy x hx heq
    rw [hnone] at hcounted
    cases hcounted

/-- The calls that get their place have not returned before. -/
theorem Losses.not_returned (hl : Losses w s s' id lost) (hw : Sound w)
    (hcall : w.callAt id = some c) :
    ∀ y ∈ (⟨id, request, reply⟩ :: lost : List Entry), ∀ r, Event.returned y.id r ∉ w.history := by
  intro y hy r
  rcases List.mem_cons.1 hy with rfl | hy
  · exact hw.tidy.not_returned hcall r
  · obtain ⟨cy, hcy, _⟩ := (hl.expires y hy).pending
    exact hw.tidy.not_returned hcy r

/-- What is promised after the stretch is what the calls with a place return. -/
theorem Losses.promised (hl : Losses w s s' id lost) (h : Linear lifetime w s order)
    (hs : StretchTaken w w' id t)
    (hnext : ∀ c', t.call? = some c' → s'.promise c' = some reply) (j : Nat) (cj : Call)
    (r : Reply) (hj : w'.callAt j = some cj) (hp : s'.promise cj = some r) :
    ∃ x ∈ order ++ ⟨id, request, reply⟩ :: lost, x.id = j ∧ x.reply = r := by
  rw [hs.calls] at hj
  split at hj
  · rename_i hji
    rw [hnext cj hj] at hp
    cases hp
    exact ⟨_, List.mem_append_right _ (List.mem_cons_self ..), hji.symm, rfl⟩
  · rename_i hji
    rcases hl.all j cj hji hj with hsame | ⟨x, hx, rfl⟩
    · obtain ⟨x, hx, hxr⟩ := h.promised j cj r hj (hsame ▸ hp)
      exact ⟨x, List.mem_append_left _ hx, hxr⟩
    · rw [(hl.promise_eq hx hj).2] at hp
      exact ⟨x, List.mem_append_right _ (List.mem_cons_of_mem _ hx), rfl, Option.some.inj hp⟩

/-- A call with a place that is still under way will return what its place says. -/
theorem Losses.counted (hl : Losses w s s' id lost) (h : Linear lifetime w s order)
    (hcall : w.callAt id = some c) (hnew : s.promise c = none) (hs : StretchTaken w w' id t)
    (hnext : ∀ c', t.call? = some c' → s'.promise c' = some reply) (j : Nat) (cj : Call)
    (hj : w'.callAt j = some cj) (x : Entry) (hx : x ∈ order ++ ⟨id, request, reply⟩ :: lost)
    (hxj : x.id = j) : s'.promise cj = some x.reply := by
  rw [hs.calls] at hj
  split at hj
  · rename_i hji
    rw [hnext cj hj]
    rcases List.mem_append.1 hx with hx | hx
    · have hplace : (⟨id, request, reply⟩ : Entry) ∈ ⟨id, request, reply⟩ :: lost :=
        List.mem_cons_self ..
      exact absurd (hxj.trans hji) (hl.fresh h hcall hnew x hx _ hplace)
    · rcases List.mem_cons.1 hx with rfl | hx
      · rfl
      · exact absurd (hxj.trans hji) (hl.others x hx)
  · rename_i hji
    rcases List.mem_append.1 hx with hx | hx
    · -- a call with a place keeps its promise
      have hold := h.counted j cj hj x hx hxj
      rcases hl.all j cj hji hj with hsame | ⟨y, hy, rfl⟩
      · rw [hsame, hold]
      · rw [(hl.promise_eq hy hj).1] at hold
        cases hold
    · rcases List.mem_cons.1 hx with rfl | hx
      · exact absurd hxj.symm hji
      · subst hxj
        exact (hl.promise_eq hx hj).2

/-- A stretch in which a call gets its place, and then those that have lost their document by
it. -/
theorem Linear.extend (h : Linear lifetime w s order) (hw : Sound w) (hcall : w.callAt id = some c)
    (hs : StretchTaken w w' id t) (hinvoked : Event.invoked id request ∈ w.history)
    (haccepts : s.Accepts request) (hperform : s.perform request = (s', reply))
    (hmirrors : Mirrors w' s') (hnew : s.promise c = none)
    (hnext : ∀ c', t.call? = some c' → s'.promise c' = some reply)
    (hdone : ∀ u r, t = .done u r → r = reply)
    (hothers : ∀ j cj, j ≠ id → w.callAt j = some cj → s'.promise cj = s.promise cj ∨
      ∃ x : Entry, x.id = j ∧ Expires w s s' x) :
    ∃ order', Linear lifetime w' s' order' := by
  obtain ⟨es, hh, hinv, hret, _⟩ := hs.events
  obtain ⟨lost, hl⟩ := exists_losses hw hothers
  refine ⟨order ++ ⟨id, request, reply⟩ :: lost, ?_, hmirrors, ?_, ?_, ?_, hl.promised h hs hnext,
    hl.counted h hcall hnew hs hnext, ?_⟩
  · have hplaced := replays_expired (h.replays.concat haccepts hperform) hl.expires
    simpa using hplaced
  · rw [List.map_append, List.nodup_append]
    refine ⟨h.nodup, ?_, ?_⟩
    · rw [List.map_cons, List.nodup_cons]
      refine ⟨fun hid => ?_, hl.nodup⟩
      obtain ⟨x, hx, hxid⟩ := List.mem_map.1 hid
      exact hl.others x hx hxid
    · intro a ha b hb hab
      obtain ⟨x, hx, rfl⟩ := List.mem_map.1 ha
      obtain ⟨y, hy, rfl⟩ := List.mem_map.1 hb
      exact hl.fresh h hcall hnew x hx y hy hab
  · intro x hx
    rw [hh]
    refine List.mem_append_right _ ?_
    rcases List.mem_append.1 hx with hx | hx
    · exact h.invoked x hx
    · rcases List.mem_cons.1 hx with rfl | hx
      · exact hinvoked
      · exact (hl.expires x hx).invoked
  · intro j r hm
    rw [hh, List.mem_append, hret] at hm
    rcases hm with ⟨rfl, u, ht⟩ | hm
    · exact ⟨_, List.mem_append_right _ (List.mem_cons_self ..), rfl, (hdone u r ht).symm⟩
    · obtain ⟨x, hx, hxr⟩ := h.returned j r hm
      exact ⟨x, List.mem_append_left _ hx, hxr⟩
  · rw [List.pairwise_append]
    have hrel : ∀ a : Entry, ∀ b ∈ (⟨id, request, reply⟩ :: lost : List Entry), ∀ r q,
        ¬ Precedes w'.history (.returned b.id r) (.invoked a.id q) := by
      intro a b hb r q hp
      rw [hh] at hp
      exact hl.not_returned hw hcall b hb r (precedes_invoked (hinv a.id q) hp).mem_left
    refine ⟨h.realtime.imp fun {a b} hab r q hp => ?_, ?_, fun a _ b hb => hrel a b hb⟩
    · rw [hh] at hp
      exact hab r q (precedes_invoked (hinv a.id q) hp)
    · rw [List.pairwise_iff_forall_sublist]
      intro a b hab
      exact hrel a b (hab.subset (by simp))

end Extend

/-- The call gets its place in its last stretch. -/
theorem Linear.extend_done {lifetime : Scope} {w w' : Workspace} {s s' u : Store}
    {order : List Entry} (h : Linear lifetime w s order) (hw : Sound w) {id : Nat} {c : Call}
    {request : Request} {reply : Reply} (hcall : w.callAt id = some c)
    (hs : StretchTaken w w' id (.done u reply)) (hinvoked : Event.invoked id request ∈ w.history)
    (haccepts : s.Accepts request) (hperform : s.perform request = (s', reply))
    (hmirrors : Mirrors w' s') (hnew : s.promise c = none)
    (hothers : ∀ j cj, j ≠ id → w.callAt j = some cj → s'.promise cj = s.promise cj ∨
      ∃ x : Entry, x.id = j ∧ Expires w s s' x) : ∃ order', Linear lifetime w' s' order' := by
  refine h.extend hw hcall hs hinvoked haccepts hperform hmirrors hnew ?_ ?_ hothers
  · intro c' hc'
    cases hc'
  · intro v r ht
    cases ht
    rfl

/-- The call gets its place and has to wait again. -/
theorem Linear.extend_next {lifetime : Scope} {w w' : Workspace} {s s' u : Store}
    {order : List Entry} (h : Linear lifetime w s order) (hw : Sound w) {id : Nat} {c c' : Call}
    {request : Request} {reply : Reply} (hcall : w.callAt id = some c)
    (hs : StretchTaken w w' id (.next u c')) (hinvoked : Event.invoked id request ∈ w.history)
    (haccepts : s.Accepts request) (hperform : s.perform request = (s', reply))
    (hmirrors : Mirrors w' s') (hnew : s.promise c = none) (hnext : s'.promise c' = some reply)
    (hothers : ∀ j cj, j ≠ id → w.callAt j = some cj → s'.promise cj = s.promise cj ∨
      ∃ x : Entry, x.id = j ∧ Expires w s s' x) : ∃ order', Linear lifetime w' s' order' := by
  refine h.extend hw hcall hs hinvoked haccepts hperform hmirrors hnew ?_ ?_ hothers
  · intro c'' hc''
    cases hc''
    exact hnext
  · intro v r ht
    cases ht

end Workspace

end PromqlServer.Document
