import PromqlServer.Proofs.Numbered
import PromqlServer.Proofs.Prometheus.Operations

/-!
Operations on one client at the same time. However arrivals, the probes of `change_data_source` and
the exchanges of the queries are interleaved, each operation comes to what it comes to if the
operations are made one after the other in the order in which they came: it meets the source that
the switches before it have left, asks below the URL of that source and decodes the answer in the
dialect of that source. Exchanges that are under way hold up nobody
(`operations_in_order_of_arrival`).
-/

namespace PromqlServer.Prometheus

/-! ## What happens to a client -/

/-- The operation that comes with an event. -/
def Event.operation? : Event → Option Operation
  | .arrive op => some op
  | _ => none

/-- The exchange that ends with an event, by the number of its operation. -/
def Client.ended? (c : Client) : Event → Option (Nat × Outcome)
  | .probed outcome =>
    match c.queue with
    | t :: _ =>
      match t.operation, t.probed with
      | .switch _, some _ => some (t.id, outcome)
      | _, _ => none
    | [] => none
  | .answered id outcome => (c.flights.find? fun f => f.id = id).map fun _ => (id, outcome)
  | _ => none

/-- The operations that came, in this order, and how exchanges have ended. -/
structure Journal where
  operations : List Operation := []
  exchanges : List (Nat × Outcome) := []

def Journal.note (j : Journal) (c : Client) (e : Event) : Journal :=
  ⟨j.operations ++ e.operation?.toList, j.exchanges ++ (c.ended? e).toList⟩

/-- The journal after events, `j` before them. -/
def Client.journal (c : Client) : List Event → Journal → Journal
  | [], j => j
  | e :: es, j => (c.step e).journal es (j.note c e)

theorem Client.journal_operations (c : Client) (events : List Event) (j : Journal) :
    (c.journal events j).operations = j.operations ++ events.filterMap Event.operation? := by
  induction events generalizing c j with
  | nil => exact (List.append_nil _).symm
  | cons e events ih =>
    rw [Client.journal, ih, Journal.note, List.filterMap_cons]
    cases e.operation? <;> simp

namespace Journal

variable (j : Journal) (settings : Settings) (lost : Outcome)

/-- How the exchange of an operation ended, and `lost` if it has not ended. -/
def outcome (n : Nat) : Outcome := (Numbered.item? j.exchanges n).getD lost

/-- The source that the first `n` operations leave if they are made one after the other. -/
def source : Nat → Option Source
  | 0 => none
  | n + 1 =>
    match j.operations[n]? with
    | none => source n
    | some op => op.leaves settings (fun _ => j.outcome lost n) (source n)

/-- The requests of the first `n` operations if they are made one after the other. -/
def requests : Nat → List (Nat × Url)
  | 0 => []
  | n + 1 => requests n ++ ((j.operations[n]?.bind fun op =>
      op.request? (j.source settings lost n)).map fun url => (n, url)).toList

variable {j settings lost} {j' : Journal} {n : Nat}

theorem source_succ {op : Operation} (h : j.operations[n]? = some op) :
    j.source settings lost (n + 1)
      = op.leaves settings (fun _ => j.outcome lost n) (j.source settings lost n) := by
  rw [source, h]

theorem requests_succ {op : Operation} (h : j.operations[n]? = some op) :
    j.requests settings lost (n + 1) = j.requests settings lost n ++
      ((op.request? (j.source settings lost n)).map fun url => (n, url)).toList := by
  rw [requests, h]
  rfl

/-- The source depends on the operations and on how the probes ended. -/
theorem source_congr (hop : ∀ i < n, j'.operations[i]? = j.operations[i]?)
    (hex : ∀ i < n, ∀ url, j.operations[i]? = some (.switch url) →
      j'.outcome lost i = j.outcome lost i) :
    j'.source settings lost n = j.source settings lost n := by
  induction n with
  | zero => rfl
  | succ n ih =>
    have hn := ih (fun i hi => hop i (Nat.lt_succ_of_lt hi))
      fun i hi => hex i (Nat.lt_succ_of_lt hi)
    rw [source, source, hop n (Nat.lt_succ_self n), hn]
    cases h : j.operations[n]? with
    | none => rfl
    | some op =>
      cases op with
      | switch url => simp only [hex n (Nat.lt_succ_self n) url h]
      | _ => rfl

theorem requests_congr (hop : ∀ i < n, j'.operations[i]? = j.operations[i]?)
    (hsource : ∀ i < n, j'.source settings lost i = j.source settings lost i) :
    j'.requests settings lost n = j.requests settings lost n := by
  induction n with
  | zero => rfl
  | succ n ih =>
    rw [requests, requests, hop n (Nat.lt_succ_self n), hsource n (Nat.lt_succ_self n),
      ih (fun i hi => hop i (Nat.lt_succ_of_lt hi)) fun i hi => hsource i (Nat.lt_succ_of_lt hi)]

end Journal

/-! ## The queue -/

/-- The operations from the `n`-th on wait. -/
def Waits (j : Journal) : Nat → List Ticket → Prop
  | n, [] => n = j.operations.length
  | n, t :: ts => t.id = n ∧ j.operations[n]? = some t.operation ∧ t.probed = none ∧
    Waits j (n + 1) ts

/-- The operations from the `n`-th on are in the queue, and those before the `b`-th have begun. Only
a switch at the head has begun and is in the queue: it waits for its probe. -/
inductive Stands (j : Journal) (n : Nat) : Nat → List Ticket → Prop
  | waiting {ts : List Ticket} (h : Waits j n ts) : Stands j n n ts
  | probing {url : String} {base : Base} {ts : List Ticket}
      (hop : j.operations[n]? = some (.switch url)) (hb : baseAt url = .ok (some base))
      (h : Waits j (n + 1) ts) : Stands j n (n + 1) (⟨n, .switch url, some base⟩ :: ts)

section Queue

variable {j : Journal} {n b : Nat} {ts : List Ticket}

theorem Waits.length (h : Waits j n ts) : n + ts.length = j.operations.length := by
  induction ts generalizing n with
  | nil => exact h
  | cons t ts ih =>
    have hlength := ih h.2.2.2
    rw [List.length_cons]
    omega

theorem Waits.probed (h : Waits j n ts) : ∀ t ∈ ts, t.probed = none := by
  induction ts generalizing n with
  | nil => simp
  | cons t ts ih =>
    intro t' ht'
    rcases List.mem_cons.1 ht' with rfl | ht'
    · exact h.2.2.1
    · exact ih h.2.2.2 t' ht'

theorem Waits.ids (h : Waits j n ts) : ts.map Ticket.id = List.range' n ts.length := by
  induction ts generalizing n with
  | nil => rfl
  | cons t ts ih =>
    rw [List.map_cons, List.length_cons, List.range'_succ, ih h.2.2.2, h.1]

theorem Waits.arrive (h : Waits j n ts) (op : Operation) (exchanges : List (Nat × Outcome)) :
    Waits ⟨j.operations ++ [op], exchanges⟩ n
      (ts ++ [{ id := j.operations.length, operation := op }]) := by
  induction ts generalizing n with
  | nil =>
    obtain rfl : n = j.operations.length := h
    exact ⟨rfl, by simp, rfl, by simp [Waits]⟩
  | cons t ts ih =>
    obtain ⟨hid, hop, hp, hts⟩ := h
    exact ⟨hid, by rw [List.getElem?_append_left (List.getElem?_eq_some_iff.1 hop).1]; exact hop,
      hp, ih hts⟩

/-- Exchanges that end do not matter to those that wait. -/
theorem Waits.exchanges (h : Waits j n ts) (exchanges : List (Nat × Outcome)) :
    Waits ⟨j.operations, exchanges⟩ n ts := by
  induction ts generalizing n with
  | nil => exact h
  | cons t ts ih => exact ⟨h.1, h.2.1, h.2.2.1, ih h.2.2.2⟩

theorem Stands.le (h : Stands j n b ts) : n ≤ b ∧ b ≤ n + 1 ∧ b ≤ j.operations.length := by
  cases h with
  | waiting h =>
    have hlength := h.length
    omega
  | probing _ _ h =>
    have hlength := h.length
    omega

theorem Stands.length (h : Stands j n b ts) : n + ts.length = j.operations.length := by
  cases h with
  | waiting h => exact h.length
  | probing _ _ h =>
    have hlength := h.length
    rw [List.length_cons]
    omega

theorem Stands.ids (h : Stands j n b ts) : ts.map Ticket.id = List.range' n ts.length := by
  cases h with
  | waiting h => exact h.ids
  | probing _ _ h => rw [List.map_cons, List.length_cons, List.range'_succ, h.ids]

end Queue

/-! ## What a client keeps to -/

/-- A client whose journal is `j` has served the first `n` operations and begun the first `b`: each
is answered or in flight with the source that it met, and comes to what it comes to in the order of
arrival. -/
structure InOrder (settings : Settings) (lost : Outcome) (c : Client) (j : Journal) (n b : Nat) :
    Prop where
  configured : c.settings = settings
  arrived : c.arrived = j.operations.length
  stands : Stands j n b c.queue
  ended : ∀ x ∈ j.exchanges, x.1 < n
  installed : c.installed = j.source settings lost n
  asked : c.asked.reverse = j.requests settings lost b
  flights : ∀ f ∈ c.flights, j.operations[f.id]? = some (.ask f.question) ∧
    j.source settings lost f.id = some f.source ∧ Numbered.item? j.exchanges f.id = none
  results : ∀ x ∈ c.results, ∃ op, j.operations[x.1]? = some op ∧
    x.2 = op.result settings (fun _ => j.outcome lost x.1) (j.source settings lost x.1)
  once : (c.results.map Prod.fst ++ c.flights.map Flight.id).Perm (List.range n)

theorem inOrder_fresh (settings : Settings) (lost : Outcome) :
    InOrder settings lost { settings } {} 0 0 where
  configured := rfl
  arrived := rfl
  stands := .waiting rfl
  ended := by simp
  installed := rfl
  asked := rfl
  flights := by simp
  results := by simp
  once := List.Perm.refl _

section InOrder

variable {settings : Settings} {lost : Outcome} {c : Client} {j : Journal} {n b : Nat}

theorem InOrder.result_lt (h : InOrder settings lost c j n b) {x : Nat × Result}
    (hx : x ∈ c.results) : x.1 < n :=
  List.mem_range.1 (h.once.subset (List.mem_append_left _ (List.mem_map_of_mem hx)))

theorem InOrder.flight_lt (h : InOrder settings lost c j n b) {f : Flight} (hf : f ∈ c.flights) :
    f.id < n :=
  List.mem_range.1 (h.once.subset (List.mem_append_right _ (List.mem_map_of_mem hf)))

/-- What was served stays as it was when the journal goes on. -/
theorem InOrder.goes_on (h : InOrder settings lost c j n b) (j' : Journal)
    (hop : ∀ i < j.operations.length, j'.operations[i]? = j.operations[i]?)
    (hex : ∀ x ∈ c.results, Numbered.item? j'.exchanges x.1 = Numbered.item? j.exchanges x.1) :
    (∀ k ≤ n, j'.source settings lost k = j.source settings lost k) ∧
    j'.requests settings lost b = j.requests settings lost b ∧
    (∀ f ∈ c.flights, j'.operations[f.id]? = some (.ask f.question) ∧
      j'.source settings lost f.id = some f.source) ∧
    ∀ x ∈ c.results, ∃ op, j'.operations[x.1]? = some op ∧
      x.2 = op.result settings (fun _ => j'.outcome lost x.1) (j'.source settings lost x.1) := by
  obtain ⟨hnb, hbn, hlength⟩ := h.stands.le
  have hsource : ∀ k ≤ n, j'.source settings lost k = j.source settings lost k := by
    intro k hk
    refine Journal.source_congr (fun i hi => hop i (by omega)) fun i hi url hswitch => ?_
    -- A switch that is served has its result, as only questions are in flight.
    have hmem := h.once.symm.subset (List.mem_range.2 (Nat.lt_of_lt_of_le hi hk))
    rcases List.mem_append.1 hmem with hmem | hmem
    · obtain ⟨x, hx, rfl⟩ := List.mem_map.1 hmem
      rw [Journal.outcome, Journal.outcome, hex x hx]
    · obtain ⟨f, hf, rfl⟩ := List.mem_map.1 hmem
      rw [(h.flights f hf).1] at hswitch
      cases hswitch
  refine ⟨hsource, ?_, fun f hf => ?_, fun x hx => ?_⟩
  · exact Journal.requests_congr (fun i hi => hop i (by omega)) fun i hi => hsource i (by omega)
  · have hlt := h.flight_lt hf
    obtain ⟨hask, hsrc, _⟩ := h.flights f hf
    exact ⟨(hop f.id (by omega)).trans hask, (hsource f.id (by omega)).trans hsrc⟩
  · have hlt := h.result_lt hx
    obtain ⟨op, hopx, hres⟩ := h.results x hx
    refine ⟨op, (hop x.1 (by omega)).trans hopx, ?_⟩
    rw [hres, hsource x.1 (by omega), Journal.outcome, Journal.outcome, hex x hx]

theorem Stands.arrive {ts : List Ticket} (h : Stands j n b ts) (op : Operation)
    (exchanges : List (Nat × Outcome)) : Stands ⟨j.operations ++ [op], exchanges⟩ n b
      (ts ++ [{ id := j.operations.length, operation := op }]) := by
  cases h with
  | waiting h => exact .waiting (h.arrive op exchanges)
  | probing hop hb h =>
    refine .probing ?_ hb (h.arrive op exchanges)
    rw [List.getElem?_append_left (List.getElem?_eq_some_iff.1 hop).1]
    exact hop

theorem InOrder.arrive (h : InOrder settings lost c j n b) (op : Operation) :
    InOrder settings lost
      { c with
        queue := c.queue ++ [{ id := c.arrived, operation := op }]
        arrived := c.arrived + 1 }
      ⟨j.operations ++ [op], j.exchanges⟩ n b := by
  obtain ⟨hsource, hrequests, hflights, hresults⟩ :=
    h.goes_on ⟨j.operations ++ [op], j.exchanges⟩
      (fun i hi => List.getElem?_append_left hi) fun x _ => rfl
  exact {
    configured := h.configured
    arrived := by simp [h.arrived]
    stands := by rw [h.arrived]; exact h.stands.arrive op j.exchanges
    ended := h.ended
    installed := h.installed.trans (hsource n (Nat.le_refl n)).symm
    asked := h.asked.trans hrequests.symm
    flights := fun f hf => ⟨(hflights f hf).1, (hflights f hf).2, (h.flights f hf).2.2⟩
    results := hresults
    once := h.once }

/-- A switch is at the head of the queue and begins. -/
theorem InOrder.probe (h : InOrder settings lost c j n n) {ts : List Ticket} {url : String}
    {base : Base} (hop : j.operations[n]? = some (.switch url))
    (hb : baseAt url = .ok (some base)) (hts : Waits j (n + 1) ts) :
    InOrder settings lost { c with
      queue := ⟨n, .switch url, some base⟩ :: ts
      asked := (n, base.rootEndpoint buildInfoPath) :: c.asked } j n (n + 1) :=
  { h with
    stands := .probing hop hb hts
    asked := by simp [Journal.requests_succ hop, h.asked, Operation.request?, hb] }

/-- The head of the queue is done. Its exchange, if it had one, has just ended. -/
theorem InOrder.conclude (h : InOrder settings lost c j n b) {t : Ticket} {ts : List Ticket}
    (hq : c.queue = t :: ts) (hid : t.id = n) (hop : j.operations[n]? = some t.operation)
    (hts : Waits j (n + 1) ts) {exchanges : List (Nat × Outcome)}
    (hex : ∀ i < n, Numbered.item? exchanges i = Numbered.item? j.exchanges i)
    (hended : ∀ x ∈ exchanges, x.1 < n + 1)
    (hasked : c.asked.reverse = j.requests settings lost (n + 1)) :
    InOrder settings lost (c.conclude t fun _ => Journal.outcome ⟨j.operations, exchanges⟩ lost n)
      ⟨j.operations, exchanges⟩ (n + 1) (n + 1) := by
  obtain ⟨hsource, -, hflights, hresults⟩ := h.goes_on ⟨j.operations, exchanges⟩
    (fun _ _ => rfl) fun x hx => hex x.1 (h.result_lt hx)
  have hn := hsource n (Nat.le_refl n)
  have hop' : (⟨j.operations, exchanges⟩ : Journal).operations[n]? = some t.operation := hop
  exact {
    configured := h.configured
    arrived := h.arrived
    stands := by
      rw [Client.conclude, hq]
      exact .waiting (hts.exchanges exchanges)
    ended := hended
    installed := by
      rw [Journal.source_succ hop', hn, ← h.installed, ← h.configured]
      rfl
    asked := by
      rw [Client.conclude, hasked]
      symm
      exact Journal.requests_congr (fun _ _ => rfl) fun i hi => hsource i (Nat.le_of_lt_succ hi)
    flights := fun f hf => by
      refine ⟨(hflights f hf).1, (hflights f hf).2, ?_⟩
      rw [hex f.id (h.flight_lt hf)]
      exact (h.flights f hf).2.2
    results := fun x hx => by
      rcases List.mem_append.1 hx with hx | hx
      · exact hresults x hx
      · rw [List.mem_singleton.1 hx, hid]
        refine ⟨t.operation, hop, ?_⟩
        rw [hn, ← h.installed, ← h.configured]
    once := by
      rw [List.range_succ]
      refine List.Perm.trans ?_ (h.once.append_right [n])
      simp only [Client.conclude, List.map_append, List.map_cons, List.map_nil, hid,
        List.append_assoc]
      exact List.Perm.append_left _ List.perm_append_comm }

/-- A question is at the head of the queue and is sent. -/
theorem InOrder.send (h : InOrder settings lost c j n n) {ts : List Ticket} {q : Question}
    {source : Source} (hop : j.operations[n]? = some (.ask q)) (hts : Waits j (n + 1) ts)
    (hs : c.installed = some source) :
    InOrder settings lost { c with
      queue := ts
      flights := c.flights ++ [⟨n, source, q⟩]
      asked := (n, source.endpointOf q) :: c.asked } j (n + 1) (n + 1) := by
  have hn : j.source settings lost n = some source := by rw [← h.installed, hs]
  exact { h with
    stands := .waiting hts
    ended := fun x hx => Nat.lt_succ_of_lt (h.ended x hx)
    installed := by
      rw [Journal.source_succ hop]
      exact h.installed
    asked := by simp [Journal.requests_succ hop, h.asked, Operation.request?, hn]
    flights := fun f hf => by
      rcases List.mem_append.1 hf with hf | hf
      · exact h.flights f hf
      · rw [List.mem_singleton.1 hf]
        exact ⟨hop, hn, Numbered.item?_eq_none h.ended (Nat.le_refl n)⟩
    once := by
      rw [List.range_succ, List.map_append, ← List.append_assoc]
      exact h.once.append_right [n] }

theorem Stands.exchanges {ts : List Ticket} (h : Stands j n b ts)
    (exchanges : List (Nat × Outcome)) : Stands ⟨j.operations, exchanges⟩ n b ts := by
  cases h with
  | waiting h => exact .waiting (h.exchanges exchanges)
  | probing hop hb h => exact .probing hop hb (h.exchanges exchanges)

/-- The exchange for a question ends. -/
theorem InOrder.land (h : InOrder settings lost c j n b) {f : Flight} (hf : f ∈ c.flights)
    (outcome : Outcome) : InOrder settings lost { c with
      flights := c.flights.filter fun g => g.id ≠ f.id
      results := c.results ++ [(f.id, f.source.answer f.question outcome)] }
      ⟨j.operations, j.exchanges ++ [(f.id, outcome)]⟩ n b := by
  obtain ⟨hask, hsrc, hnone⟩ := h.flights f hf
  have hnodup : (c.results.map Prod.fst ++ c.flights.map Flight.id).Nodup :=
    h.once.nodup_iff.2 List.nodup_range
  have hitem := Numbered.item?_concat j.exchanges f.id outcome hnone
  obtain ⟨hsource, hrequests, hflights, hresults⟩ := h.goes_on
    ⟨j.operations, j.exchanges ++ [(f.id, outcome)]⟩ (fun _ _ => rfl) fun x hx => by
      rw [hitem, if_neg]
      exact (List.nodup_append.1 hnodup).2.2 x.1 (List.mem_map_of_mem hx) f.id
        (List.mem_map_of_mem hf)
  exact {
    configured := h.configured
    arrived := h.arrived
    stands := h.stands.exchanges _
    ended := fun x hx => by
      rcases List.mem_append.1 hx with hx | hx
      · exact h.ended x hx
      · rw [List.mem_singleton.1 hx]
        exact h.flight_lt hf
    installed := h.installed.trans (hsource n (Nat.le_refl n)).symm
    asked := h.asked.trans hrequests.symm
    flights := fun g hg => by
      obtain ⟨hg, hne⟩ := List.mem_filter.1 hg
      refine ⟨(hflights g hg).1, (hflights g hg).2, ?_⟩
      rw [hitem, if_neg (by simpa using hne)]
      exact (h.flights g hg).2.2
    results := fun x hx => by
      rcases List.mem_append.1 hx with hx | hx
      · exact hresults x hx
      · rw [List.mem_singleton.1 hx]
        refine ⟨.ask f.question, hask, ?_⟩
        rw [(hflights f hf).2, Journal.outcome, hitem, if_pos rfl]
        rfl
    once := by
      have hids : (c.flights.map Flight.id).Perm
          (f.id :: (c.flights.filter fun g => g.id ≠ f.id).map Flight.id) := by
        have hfilter : (c.flights.filter fun g => g.id ≠ f.id).map Flight.id
            = (c.flights.map Flight.id).erase f.id := by
          rw [(List.nodup_append.1 hnodup).2.1.erase_eq_filter, List.filter_map]
          simp only [ne_eq, decide_not]
          rfl
        rw [hfilter]
        exact List.perm_cons_erase (List.mem_map_of_mem hf)
      refine List.Perm.trans ?_ ((hids.append_left (c.results.map Prod.fst)).symm.trans h.once)
      rw [List.map_append, List.append_assoc]
      exact List.Perm.refl _ }

/-! ## Every run -/

theorem Journal.note_eq {e : Event} (ha : e.operation? = none) (he : c.ended? e = none) :
    j.note c e = j := by
  simp [Journal.note, ha, he]

theorem InOrder.serve (h : InOrder settings lost c j n b) :
    ∃ n' b', InOrder settings lost c.serve j n' b' := by
  have hstands := h.stands
  generalize hq : c.queue = q at hstands
  cases hstands with
  | probing hop hb hts =>
    have hstill : c.serve = c := by simp [Client.serve, hq]
    rw [hstill]
    exact ⟨_, _, h⟩
  | waiting hw =>
    cases q with
    | nil =>
      have hstill : c.serve = c := by simp only [Client.serve, hq]
      rw [hstill]
      exact ⟨_, _, h⟩
    | cons t ts =>
      obtain ⟨id, op, probed⟩ := t
      obtain ⟨rfl, hop, rfl, hts⟩ := hw
      cases hr : op.request? c.installed with
      | none =>
        rw [Client.serve_conclude hq rfl hr fun _ => j.outcome lost id]
        refine ⟨_, _, h.conclude hq rfl hop hts (fun _ _ => rfl)
          (fun x hx => Nat.lt_succ_of_lt (h.ended x hx)) ?_⟩
        rw [Journal.requests_succ hop, ← h.installed, hr, h.asked]
        simp
      | some request =>
        cases op with
        | url | dialect => cases hr
        | switch url =>
          cases hb : baseAt url with
          | error e => simp [Operation.request?, hb] at hr
          | ok base =>
            cases base with
            | none => simp [Operation.request?, hb] at hr
            | some base =>
              rw [Client.serve_switch hq rfl rfl hb]
              exact ⟨_, _, h.probe hop hb hts⟩
        | ask q =>
          obtain ⟨source, hsource, -⟩ := Option.map_eq_some_iff.1 hr
          rw [Client.serve_ask hq rfl hsource]
          exact ⟨_, _, h.send hop hts hsource⟩

theorem InOrder.probed (h : InOrder settings lost c j n b) (outcome : Outcome) :
    ∃ n' b',
      InOrder settings lost (c.step (.probed outcome)) (j.note c (.probed outcome)) n' b' := by
  have hstands := h.stands
  generalize hq : c.queue = q at hstands
  cases hstands with
  | waiting hw =>
    have hstill : c.step (.probed outcome) = c ∧ c.ended? (.probed outcome) = none := by
      cases q with
      | nil => simp [Client.step, Client.ended?, hq]
      | cons t ts => simp [Client.step, Client.ended?, hq, hw.2.2.1]
    rw [hstill.1, Journal.note_eq rfl hstill.2]
    exact ⟨_, _, h⟩
  | @probing url base ts hop hb hts =>
    have hnote : j.note c (.probed outcome) = ⟨j.operations, j.exchanges ++ [(n, outcome)]⟩ := by
      simp [Journal.note, Client.ended?, hq, Event.operation?]
    have hnone := Numbered.item?_eq_none h.ended (Nat.le_refl n)
    have hitem := Numbered.item?_concat j.exchanges n outcome hnone
    have houtcome : Journal.outcome ⟨j.operations, j.exchanges ++ [(n, outcome)]⟩ lost n
        = outcome := by
      rw [Journal.outcome, hitem, if_pos rfl]
      rfl
    have hstep : c.step (.probed outcome) = c.conclude ⟨n, .switch url, some base⟩
        fun _ => Journal.outcome ⟨j.operations, j.exchanges ++ [(n, outcome)]⟩ lost n :=
      Client.step_probed hq rfl rfl hb houtcome
    rw [hnote, hstep]
    refine ⟨_, _, h.conclude hq rfl hop hts (fun i hi => ?_) (fun x hx => ?_) h.asked⟩
    · rw [hitem, if_neg (Nat.ne_of_lt hi)]
    · rcases List.mem_append.1 hx with hx | hx
      · exact Nat.lt_succ_of_lt (h.ended x hx)
      · rw [List.mem_singleton.1 hx]
        exact Nat.lt_succ_self n

theorem InOrder.answered (h : InOrder settings lost c j n b) (id : Nat) (outcome : Outcome) :
    InOrder settings lost (c.step (.answered id outcome)) (j.note c (.answered id outcome))
      n b := by
  cases hf : c.flights.find? fun f => f.id = id with
  | none =>
    have hstill : c.step (.answered id outcome) = c := by simp [Client.step, hf]
    rw [hstill, Journal.note_eq rfl (by simp [Client.ended?, hf])]
    exact h
  | some f =>
    obtain rfl : f.id = id := by simpa using List.find?_some hf
    have hnote : j.note c (.answered f.id outcome)
        = ⟨j.operations, j.exchanges ++ [(f.id, outcome)]⟩ := by
      simp [Journal.note, Client.ended?, hf, Event.operation?]
    rw [hnote, Client.step_answered hf]
    exact h.land (List.mem_of_find?_eq_some hf) outcome

theorem InOrder.step (h : InOrder settings lost c j n b) (e : Event) :
    ∃ n' b', InOrder settings lost (c.step e) (j.note c e) n' b' := by
  cases e with
  | arrive op =>
    have hnote : j.note c (.arrive op) = ⟨j.operations ++ [op], j.exchanges⟩ := by
      simp [Journal.note, Event.operation?, Client.ended?]
    rw [hnote]
    exact ⟨_, _, h.arrive op⟩
  | serve =>
    rw [Journal.note_eq rfl rfl]
    exact h.serve
  | probed outcome => exact h.probed outcome
  | answered id outcome => exact ⟨_, _, h.answered id outcome⟩

theorem InOrder.run (h : InOrder settings lost c j n b) (events : List Event) :
    ∃ n' b', InOrder settings lost (c.run events) (c.journal events j) n' b' := by
  induction events generalizing c j n b with
  | nil => exact ⟨n, b, h⟩
  | cons e events ih =>
    obtain ⟨n', b', h'⟩ := h.step e
    exact ih h'

/-! ## Nobody waits for an answer -/

/-- What the operations to come depend on. -/
def Client.front (c : Client) : Client := { c with flights := [], results := [], asked := [] }

/-- From `c` to `c'` the first `k` operations of the queue have left it, the switches among them
with a result. What was in flight still is. -/
structure Client.Left (k : Nat) (c c' : Client) : Prop where
  queue : c'.queue = c.queue.drop k
  flights : c.flights <+: c'.flights
  results : c.results <+: c'.results
  switches : ∀ t ∈ c.queue.take k, ∀ url, t.operation = .switch url →
    ∃ r, (t.id, r) ∈ c'.results

theorem Client.Left.trans {k m : Nat} {c c' c'' : Client} (h : Left k c c') (h' : Left m c' c'') :
    Left (k + m) c c'' where
  queue := by rw [h'.queue, h.queue, List.drop_drop]
  flights := h.flights.trans h'.flights
  results := h.results.trans h'.results
  switches := by
    intro t ht url hop
    rw [List.take_add, ← h.queue] at ht
    rcases List.mem_append.1 ht with ht | ht
    · obtain ⟨r, hr⟩ := h.switches t ht url hop
      exact ⟨r, h'.results.subset hr⟩
    · exact h'.switches t ht url hop

end InOrder

/-! ## The last switch -/

/-- Operations with what they have returned. -/
def Client.log (c : Client) (operations : List Operation) : List (Operation × Option Result) :=
  operations.zipIdx.map fun x => (x.1, c.result? x.2)

theorem Client.log_concat (c : Client) (operations : List Operation) (op : Operation) :
    c.log (operations ++ [op]) = c.log operations ++ [(op, c.result? operations.length)] := by
  simp [Client.log, List.zipIdx_append]

theorem InOrder.result?_eq {settings : Settings} {lost : Outcome} {c : Client} {j : Journal}
    {n b : Nat} (h : InOrder settings lost c j n b) {id : Nat} {r : Result}
    (hr : (id, r) ∈ c.results) : c.result? id = some r :=
  (Numbered.item?_eq_some_iff
    (List.nodup_append.1 (h.once.nodup_iff.2 List.nodup_range)).1).2 hr

/-- At any time, what is installed is what the last switch to come of those that have succeeded
brought. -/
theorem InOrder.produces {settings : Settings} {lost : Outcome} {c : Client} {j : Journal}
    {n b : Nat} (h : InOrder settings lost c j n b) :
    Produces c.installed (lastSwitch? (c.log j.operations)) := by
  have hlength := h.stands.length
  -- Up to the operations that are served, by what each of them leaves.
  have hserved : ∀ k ≤ n, Produces (j.source settings lost k)
      (lastSwitch? (c.log (j.operations.take k))) := by
    intro k hk
    induction k with
    | zero => rfl
    | succ k ih =>
      have hlt : k < j.operations.length := by omega
      have hop := List.getElem?_eq_getElem hlt
      have hprevious := ih (by omega)
      rw [List.take_add_one, hop, Option.toList_some, Client.log_concat, List.length_take,
        Nat.min_eq_left (Nat.le_of_lt hlt), Journal.source_succ hop]
      rcases List.mem_append.1 (h.once.symm.subset (List.mem_range.2 hk)) with hmem | hmem
      · obtain ⟨x, hx, rfl⟩ := List.mem_map.1 hmem
        obtain ⟨op, hop', hres⟩ := h.results x hx
        rw [hop] at hop'
        cases hop'
        rw [h.result?_eq hx, hres]
        exact hprevious.leaves settings _ _
      · obtain ⟨f, hf, rfl⟩ := List.mem_map.1 hmem
        have hask := (h.flights f hf).1
        rw [hop] at hask
        rw [Option.some.inj hask, lastSwitch?_concat]
        exact hprevious
  -- The others are in the queue, without a result.
  have hwaiting : ∀ k, lastSwitch? (c.log (j.operations.take (n + k)))
      = lastSwitch? (c.log (j.operations.take n)) := by
    intro k
    induction k with
    | zero => rfl
    | succ k ih =>
      rw [← Nat.add_assoc, List.take_add_one]
      cases hop : j.operations[n + k]? with
      | none => rw [Option.toList_none, List.append_nil, ih]
      | some op =>
        have hlt := (List.getElem?_eq_some_iff.1 hop).1
        have hnone : c.result? (n + k) = none :=
          Numbered.item?_eq_none (fun x hx => h.result_lt hx) (Nat.le_add_right n k)
        rw [Option.toList_some, Client.log_concat, List.length_take,
          Nat.min_eq_left (Nat.le_of_lt hlt), hnone, lastSwitch?_concat, ih]
        cases op <;> rfl
  have hall := hwaiting c.queue.length
  rw [hlength, List.take_length] at hall
  rw [hall, h.installed]
  exact hserved n (Nat.le_refl n)

/-- How many operations have begun: the others wait in the queue. -/
def Client.begun (c : Client) : Nat := c.arrived - c.queue.countP fun t => t.probed.isNone

theorem InOrder.begun {settings : Settings} {lost : Outcome} {c : Client} {j : Journal} {n b : Nat}
    (h : InOrder settings lost c j n b) : c.begun = b := by
  have hcount : ∀ {m : Nat} {ts : List Ticket}, Waits j m ts →
      ts.countP (fun t => t.probed.isNone) = ts.length := fun hw =>
    List.countP_eq_length.2 fun t ht => by rw [hw.probed t ht]; rfl
  have hstands := h.stands
  rw [Client.begun, h.arrived]
  generalize c.queue = q at hstands
  cases hstands with
  | waiting hw =>
    have hlength := hw.length
    rw [hcount hw]
    omega
  | probing _ _ hw =>
    have hlength := hw.length
    rw [List.countP_cons_of_neg (by simp), hcount hw]
    omega

end PromqlServer.Prometheus
