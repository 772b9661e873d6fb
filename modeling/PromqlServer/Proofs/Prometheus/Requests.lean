import PromqlServer.Proofs.Prometheus.Interleaving

/-!
The requests that a client makes for one query, whatever else it has to do: the query waits for the
lock, and when it is served it makes one request of the source that is installed then, or none if
there is no source.
-/

namespace PromqlServer.Prometheus

/-- What an event does to the queue of a client and to its requests. -/
inductive Served (c : Client) : Event → Client → Prop
  | kept {e : Event} {c' : Client} (hq : c'.queue = c.queue) (ha : c'.asked = c.asked)
      (hn : c'.arrived = c.arrived) : Served c e c'
  | arrived {op : Operation} {c' : Client}
      (hq : c'.queue = c.queue ++ [{ id := c.arrived, operation := op }])
      (ha : c'.asked = c.asked) (hn : c'.arrived = c.arrived + 1) : Served c (.arrive op) c'
  /-- The head of the queue is done without a request. -/
  | left {e : Event} {c' : Client} {t : Ticket} {ts : List Ticket} (hq : c.queue = t :: ts)
      (hq' : c'.queue = ts) (ha : c'.asked = c.asked) (hn : c'.arrived = c.arrived) : Served c e c'
  /-- A switch probes a backend. -/
  | probes {e : Event} {c' : Client} {t : Ticket} {ts : List Ticket} {text : String} {base : Base}
      {url : Url} (hq : c.queue = t :: ts) (hop : t.operation = .switch text)
      (hq' : c'.queue = { t with probed := some base } :: ts)
      (ha : c'.asked = (t.id, url) :: c.asked) (hn : c'.arrived = c.arrived) : Served c e c'
  /-- A question is sent to the source that is installed. -/
  | sent {e : Event} {c' : Client} {t : Ticket} {ts : List Ticket} {q : Question} {source : Source}
      (hq : c.queue = t :: ts) (hop : t.operation = .ask q) (hs : c.installed = some source)
      (hq' : c'.queue = ts) (ha : c'.asked = (t.id, source.endpointOf q) :: c.asked)
      (hn : c'.arrived = c.arrived) : Served c e c'

namespace Client

theorem served_serve (c : Client) : Served c .serve c.serve := by
  cases hq : c.queue with
  | nil =>
    unfold serve
    simp only [hq]
    exact .kept rfl rfl rfl
  | cons t ts =>
    cases hop : t.operation with
    | switch text =>
      cases hp : t.probed with
      | some base =>
        unfold serve
        simp only [hq, hop, hp, Option.isSome_some, if_true]
        exact .kept rfl rfl rfl
      | none =>
        rw [serve_unprobed hq hp hop, beginSwitch_eq]
        cases baseAt text with
        | error e => exact .left hq (by simp [dequeue, finish, hq]) rfl rfl
        | ok base =>
          cases base with
          | none => exact .left hq (by simp [dequeue, finish, hq]) rfl rfl
          | some base => exact .probes hq hop (by simp only [hq, List.tail_cons]; rfl) rfl rfl
    | ask q =>
      cases hs : c.installed with
      | none =>
        unfold serve
        simp only [hq, hop, beginQuestion, hs]
        exact .left hq (by simp [dequeue, finish, hq]) rfl rfl
      | some source =>
        rw [serve_ask hq hop hs]
        exact .sent hq hop hs rfl rfl rfl
    | url | dialect =>
      unfold serve
      simp only [hq, hop]
      exact .left hq (by simp [dequeue, finish, hq]) rfl rfl

theorem served_step (c : Client) (e : Event) : Served c e (c.step e) := by
  cases e with
  | arrive op => exact .arrived rfl rfl rfl
  | serve => exact c.served_serve
  | probed outcome =>
    simp only [step]
    split
    · rename_i t ts hq
      split
      · simp only [endSwitch]
        split <;> exact .left hq (by simp [dequeue, finish, hq]) rfl rfl
      · exact .kept rfl rfl rfl
    · exact .kept rfl rfl rfl
  | answered id outcome =>
    simp only [step]
    split
    · exact .kept rfl rfl rfl
    · exact .kept rfl rfl rfl

/-- The requests of `c'` that `c` has not made yet. -/
def newRequests (c c' : Client) : List (Nat × Url) :=
  c'.asked.take (c'.asked.length - c.asked.length)

theorem newRequests_of_same {c c' : Client} (h : c'.asked = c.asked) : c.newRequests c' = [] := by
  simp [newRequests, h]

theorem newRequests_of_cons {c c' : Client} {x : Nat × Url} (h : c'.asked = x :: c.asked) :
    c.newRequests c' = [x] := by
  simp [newRequests, h]

end Client

/-- Operations have numbers of their own, in the order in which they came. -/
structure Numbers (c : Client) : Prop where
  nodup : (c.queue.map Ticket.id).Nodup
  below : ∀ t ∈ c.queue, t.id < c.arrived

theorem InOrder.numbers {settings : Settings} {lost : Outcome} {c : Client} {j : Journal}
    {n b : Nat} (h : InOrder settings lost c j n b) : Numbers c := by
  have hids := h.stands.ids
  have hlength := h.stands.length
  constructor
  · rw [hids]
    exact List.nodup_range'
  · intro t ht
    have hmem : t.id ∈ List.range' n c.queue.length := by
      rw [← hids]
      exact List.mem_map_of_mem ht
    rw [List.mem_range'_1] at hmem
    rw [h.arrived]
    omega

/-- A question that came to the client, by the requests made for it, each with the source that was
installed then. -/
inductive Posed (c : Client) (id : Nat) (q : Question) : List (Option Source × Url) → Prop
  | waiting {t : Ticket} (ht : t ∈ c.queue) (hid : t.id = id) (hop : t.operation = .ask q) :
      Posed c id q []
  | served {requests : List (Option Source × Url)} (hgone : ∀ t ∈ c.queue, t.id ≠ id)
      (hlt : id < c.arrived) (h : requests = [] ∨
        ∃ source, requests = [(some source, source.endpointOf q)]) : Posed c id q requests

/-- The requests among some that were made for an operation, with the source `installed`. -/
def requestsOf (ids : List Nat) (installed : Option Source) (requests : List (Nat × Url)) :
    List (Option Source × Url) :=
  (requests.filter fun x => ids.contains x.1).map fun x => (installed, x.2)

section Posed

variable {c c' : Client} {e : Event} {id : Nat} {q : Question}
  {requests : List (Option Source × Url)}

/-- The head of the queue and the others have different numbers. -/
theorem Numbers.head_ne (h : Numbers c) {t : Ticket} {ts : List Ticket} (hq : c.queue = t :: ts) :
    ∀ u ∈ ts, u.id ≠ t.id := by
  intro u hu heq
  have hnodup := h.nodup
  rw [hq, List.map_cons, List.nodup_cons] at hnodup
  exact hnodup.1 (heq ▸ List.mem_map_of_mem hu)

theorem Posed.step (h : Posed c id q requests) (hn : Numbers c) (hs : Served c e c') :
    Posed c' id q (requests ++ requestsOf [id] c.installed (c.newRequests c')) := by
  have hnone : ∀ {installed}, requests ++ requestsOf [id] installed [] = requests :=
    List.append_nil _
  have hother : ∀ {installed url} {j : Nat}, j ≠ id →
      requests ++ requestsOf [id] installed [(j, url)] = requests := by
    intro installed url j hne
    simp [requestsOf, hne]
  cases hs with
  | kept hq ha harrived =>
    rw [Client.newRequests_of_same ha, hnone]
    cases h with
    | waiting ht hid hop => exact .waiting (hq ▸ ht) hid hop
    | served hgone hlt h => exact .served (hq ▸ hgone) (harrived ▸ hlt) h
  | arrived hq ha harrived =>
    rw [Client.newRequests_of_same ha, hnone]
    cases h with
    | waiting ht hid hop => exact .waiting (hq ▸ List.mem_append_left _ ht) hid hop
    | served hgone hlt h =>
      refine .served (fun t ht => ?_) (by rw [harrived]; omega) h
      rw [hq] at ht
      rcases List.mem_append.1 ht with ht | ht
      · exact hgone t ht
      · rw [List.mem_singleton.1 ht]
        exact Nat.ne_of_gt hlt
  | @left _ _ t ts hq hq' ha harrived =>
    rw [Client.newRequests_of_same ha, hnone]
    cases h with
    | @waiting u hu hid hop =>
      rw [hq] at hu
      rcases List.mem_cons.1 hu with rfl | hu
      · refine .served (fun v hv => ?_) ?_ (Or.inl rfl)
        · rw [hq'] at hv
          exact hid ▸ hn.head_ne hq v hv
        · rw [harrived, ← hid]
          exact hn.below u (by rw [hq]; exact List.mem_cons_self ..)
      · exact .waiting (hq' ▸ hu) hid hop
    | served hgone hlt h =>
      refine .served (fun u hu => hgone u ?_) (harrived ▸ hlt) h
      rw [hq]
      exact List.mem_cons_of_mem _ (hq' ▸ hu)
  | @probes _ _ t ts text base url hq hop hq' ha harrived =>
    rw [Client.newRequests_of_cons ha]
    cases h with
    | @waiting u hu hid hask =>
      rw [hq] at hu
      rcases List.mem_cons.1 hu with rfl | hu
      · rw [hop] at hask
        cases hask
      · rw [hother (fun heq => hn.head_ne hq u hu (hid.trans heq.symm))]
        exact .waiting (hq' ▸ List.mem_cons_of_mem _ hu) hid hask
    | served hgone hlt h =>
      have hhead : t.id ≠ id := hgone t (by rw [hq]; exact List.mem_cons_self ..)
      rw [hother hhead]
      refine .served (fun u hu => ?_) (harrived ▸ hlt) h
      rw [hq'] at hu
      rcases List.mem_cons.1 hu with rfl | hu
      · exact hhead
      · exact hgone u (by rw [hq]; exact List.mem_cons_of_mem _ hu)
  | @sent _ _ t ts question source hq hop hsource hq' ha harrived =>
    rw [Client.newRequests_of_cons ha]
    cases h with
    | @waiting u hu hid hask =>
      rw [hq] at hu
      rcases List.mem_cons.1 hu with rfl | hu
      · -- the question itself is sent
        rw [hop] at hask
        cases hask
        refine .served (fun v hv => ?_) ?_ (Or.inr ⟨source, ?_⟩)
        · rw [hq'] at hv
          exact hid ▸ hn.head_ne hq v hv
        · rw [harrived, ← hid]
          exact hn.below u (by rw [hq]; exact List.mem_cons_self ..)
        · simp [requestsOf, hid, hsource]
      · rw [hother (fun heq => hn.head_ne hq u hu (hid.trans heq.symm))]
        exact .waiting (hq' ▸ hu) hid hask
    | served hgone hlt h =>
      have hhead : t.id ≠ id := hgone t (by rw [hq]; exact List.mem_cons_self ..)
      rw [hother hhead]
      refine .served (fun u hu => hgone u ?_) (harrived ▸ hlt) h
      rw [hq]
      exact List.mem_cons_of_mem _ (hq' ▸ hu)

theorem Posed.arrive (c : Client) (q : Question) :
    Posed (c.step (.arrive (.ask q))) c.arrived q [] :=
  .waiting (List.mem_append_right _ (List.mem_singleton_self _)) rfl rfl

/-- There is one request at most. -/
theorem Posed.at_most_one (h : Posed c id q requests) :
    requests = [] ∨ ∃ source, requests = [(some source, source.endpointOf q)] := by
  cases h with
  | waiting => exact Or.inl rfl
  | served _ _ h => exact h

end Posed

end PromqlServer.Prometheus
