import PromqlServer.Proofs.Document.Linearization
import PromqlServer.Proofs.Document.Projections

/-!
The operations of a document cache at the same time have an order in which they return the same when
they are made one after the other. Main statement (`linearizable`): one order does for all
documents, it keeps the order in which calls returned and were made, and of the calls in it those
about one URI return the same by themselves.
-/

namespace PromqlServer.Document

/-- A scope is cancelled from outside. -/
def Event.isCancellation : Event → Bool
  | .cancelled _ => true
  | _ => false

namespace Workspace

/-- An order of some calls of a run: each call stands in it once, those that have returned stand in
it with their replies, and one that returned before another was made comes first. A call that has
not returned stands in it if others have seen what it did. -/
structure Orders (w : Workspace) (calls : Request → Bool) (order : List Entry) : Prop where
  once : (order.map Entry.id).Nodup
  made : ∀ x ∈ order, Event.invoked x.id x.request ∈ w.history ∧ calls x.request = true
  returned : ∀ id request reply, Event.invoked id request ∈ w.history → calls request = true →
    Event.returned id reply ∈ w.history → ⟨id, request, reply⟩ ∈ order
  realtime : order.Pairwise fun a b =>
    ∀ reply request, ¬ Precedes w.history (.returned b.id reply) (.invoked a.id request)

theorem Linear.orders {lifetime : Scope} {w : Workspace} {s : Store} {order : List Entry}
    (h : Linear lifetime w s order) (honce : Once w) : Orders w (fun _ => true) order where
  once := h.nodup
  made x hx := ⟨h.invoked x hx, rfl⟩
  returned id request reply hinvoked _ hreturned := by
    obtain ⟨x, hx, rfl, rfl⟩ := h.returned id reply hreturned
    rw [honce x.id request x.request hinvoked (h.invoked x hx)]
    exact hx
  realtime := h.realtime

theorem Orders.filter {w : Workspace} {order : List Entry} (h : Orders w (fun _ => true) order)
    (calls : Request → Bool) : Orders w calls (order.filter fun x => calls x.request) where
  once := h.once.sublist (List.filter_sublist.map _)
  made x hx := by
    obtain ⟨hx, hcalls⟩ := List.mem_filter.1 hx
    exact ⟨(h.made x hx).1, hcalls⟩
  returned id request reply hinvoked hcalls hreturned :=
    List.mem_filter.2 ⟨h.returned id request reply hinvoked rfl hreturned, hcalls⟩
  realtime := h.realtime.filter _

/-- The name of a document is the one of its editions. -/
theorem Linear.name {lifetime : Scope} {w : Workspace} {s : Store} {order : List Entry}
    (h : Linear lifetime w s order) (hw : Sound w) {e : Edition} (he : w.HandedOut e) :
    s.uris[e.slot]? = some e.uri := by
  obtain ⟨d, hd, hu⟩ := hw.staged.editions e he
  obtain ⟨d', hd', hu'⟩ := h.mirrors.slot hd
  rw [Store.uris_of_slot hd', hu', hu]

/-- Of the calls in the order, those about one URI return the same by themselves. -/
theorem Linear.replies_filter {lifetime : Scope} {w : Workspace} {s : Store} {order : List Entry}
    (h : Linear lifetime w s order) (hw : Sound w) (hlifetime : w.store.lifetime = lifetime)
    (uri : Uri) :
    (fresh lifetime).replies ((order.filter fun x => x.request.touches uri).map fun x =>
        x.request.renumber lifetime.length (rank s.uris uri))
      = (order.filter fun x => x.request.touches uri).map fun x =>
        some ((x.reply.regarding uri).renumber lifetime.length (rank s.uris uri)) := by
  obtain ⟨t, ht⟩ := h.replays.project (part_fresh s.uris uri lifetime) List.prefix_rfl (by
    intro x hx e report hcommit
    obtain ⟨y, hy, rfl⟩ := List.mem_map.1 hx
    have hinvoked : Event.invoked y.id (.commit e report) ∈ w.history := by
      rw [← hcommit]
      exact h.invoked y hy
    have hout := hw.staged.commits y.id e report hinvoked
    obtain ⟨d, n, _, hscope, _⟩ := hw.dated.edition e hout
    rw [Store.editionScope, Store.slotScope, hlifetime] at hscope
    exact ⟨h.name hw hout, n, hscope⟩)
  have hreplies := replies_of_replays ht (Store.quiet_fresh lifetime)
    (w := fresh lifetime) rfl rfl
  simp only [List.filter_map, List.map_map] at hreplies
  exact hreplies

/-- For the calls of a run in which no lifetime is cancelled from outside there is an order in which
they return the same when they are made one after the other. And for each URI, those of the order
that are about this URI return the same when only they are made: but for the numbers by which
documents are known, and for what a shutdown returns of documents of other URIs. -/
theorem linearizable {lifetime : Scope} {w : Workspace} (h : Proceeds (fresh lifetime) w)
    (hno : ∀ x ∈ w.history, x.isCancellation = false) :
    ∃ order : List Entry, Orders w (fun _ => true) order ∧
      (fresh lifetime).replies (order.map Entry.request) = order.map (fun x => some x.reply) ∧
      ∀ uri, Orders w (Request.touches uri) (order.filter fun x => x.request.touches uri) ∧
        ∃ number : Nat → Nat,
          (∀ e e', w.HandedOut e → w.HandedOut e' → e.uri = uri → e'.uri = uri →
            number e.slot = number e'.slot → e.slot = e'.slot) ∧
          (fresh lifetime).replies ((order.filter fun x => x.request.touches uri).map fun x =>
              x.request.renumber lifetime.length number)
            = (order.filter fun x => x.request.touches uri).map fun x =>
              some ((x.reply.regarding uri).renumber lifetime.length number) := by
  obtain ⟨s, order, hlinear⟩ := h.linear fun scope hm => by cases hno _ hm
  obtain ⟨hr, _⟩ := h.spec
  have hw := hr.sound (sound_fresh lifetime)
  have horders := hlinear.orders hr.publishOrder.once
  have hreplies := replies_of_replays hlinear.replays (Store.quiet_fresh lifetime)
    (w := fresh lifetime) rfl rfl
  rw [List.map_map, List.map_map] at hreplies
  refine ⟨order, horders, hreplies, fun uri => ⟨horders.filter _, rank s.uris uri, ?_, ?_⟩⟩
  · intro e e' he he' hu hu' hnumber
    refine rank_inj ?_ ?_ hnumber
    · rw [hlinear.name hw he, hu]
    · rw [hlinear.name hw he', hu']
  · exact hlinear.replies_filter hw hr.lifetime uri

/-! ## A document that is closed and opened again while its report goes out -/

def alertsEdition : Edition := ⟨⟨"file:///alerts"⟩, 1, "up", 1, [1, 0]⟩

/-- The question for the version and the close wait for the publication, and the URI is opened again
before they return. Another document is open all the time. -/
def alerts : List Action :=
  [.invoke .answer (.track ⟨"file:///rules"⟩ "down" 7), .advance 0,
    .invoke .answer (.track ⟨"file:///alerts"⟩ "up" 1), .advance 1,
    .invoke .answer (.commit alertsEdition ⟨⟨"file:///alerts"⟩, 1, []⟩), .advance 2, .advance 2,
    .invoke .answer (.version ⟨"file:///alerts"⟩), .advance 3,
    .invoke .answer (.close ⟨"file:///alerts"⟩), .advance 4,
    .invoke .answer (.track ⟨"file:///alerts"⟩ "sum" 4), .advance 5,
    .advance 2, .advance 3, .advance 4]

/-- The version is asked for too late, and the close knows of the publication. -/
theorem linearizable_alerts : ∃ order : List Entry,
    ⟨3, .version ⟨"file:///alerts"⟩, .failed (.expired ⟨"file:///alerts"⟩)⟩ ∈ order ∧
    ⟨4, .close ⟨"file:///alerts"⟩, .closed ⟨⟨"file:///alerts"⟩, 1, true⟩⟩ ∈ order ∧
    (fresh []).replies (order.map Entry.request) = order.map (fun x => some x.reply) := by
  have hrun : Proceeds (fresh []) (alerts.foldl stride (fresh [])) := .run .refl (by decide)
  have hkinds : ∀ x ∈ (alerts.foldl stride (fresh [])).history, x.isCancellation = false := by
    decide
  obtain ⟨order, horders, hreplies, _⟩ := linearizable hrun hkinds
  refine ⟨order, ?_, ?_, hreplies⟩
  · exact horders.returned _ _ _ (by decide) rfl (by decide)
  · exact horders.returned _ _ _ (by decide) rfl (by decide)

end Workspace

end PromqlServer.Document
