import PromqlServer.Prometheus.Client
import PromqlServer.Proofs.Numbered

/-!
A client gets on with its switches and queries: on a network that answers, each event leaves less to
do.
-/

namespace PromqlServer.Prometheus

/-- How many events an operation in the queue still takes before it leaves it, with one more for
the answer to a question. -/
def Ticket.weight (t : Ticket) : Nat := if t.probed.isSome then 1 else 2

namespace Client

/-- An upper bound of the events until every operation is answered. -/
def load (c : Client) : Nat := Numbered.total Ticket.weight c.queue + c.flights.length

/-- Only a switch waits for a probe. -/
def Sane (c : Client) : Prop := ∀ t ∈ c.queue, t.probed.isSome → ∃ url, t.operation = .switch url

theorem sane_fresh (settings : Settings) : Sane { settings } := by simp [Sane]

variable {c : Client}

theorem load_arrive (c : Client) (operation : Operation) :
    (c.step (.arrive operation)).load = c.load + 2 := by
  have hweight : Ticket.weight { id := c.arrived, operation } = 2 := rfl
  simp only [step, load, Numbered.total_append, Numbered.total_cons, Numbered.total_nil, hweight]
  omega

theorem Sane.arrive (h : Sane c) (operation : Operation) : Sane (c.step (.arrive operation)) := by
  intro t ht hprobed
  rcases List.mem_append.1 ht with ht | ht
  · exact h t ht hprobed
  · rw [List.mem_singleton.1 ht] at hprobed
    cases hprobed

/-- The head of the queue leaves it. -/
theorem Sane.leave (h : Sane c) {t : Ticket} {ts : List Ticket} (hq : c.queue = t :: ts)
    {c' : Client} (hq' : c'.queue = ts) (hf : c'.flights.length < c.flights.length + t.weight) :
    Sane c' ∧ c'.load < c.load := by
  refine ⟨fun t' ht' => ?_, ?_⟩
  · rw [hq'] at ht'
    exact h t' (by rw [hq]; exact List.mem_cons_of_mem t ht')
  · rw [load, load, hq', hq, Numbered.total_cons]
    omega

theorem Sane.serve (h : Sane c) {t : Ticket} {ts : List Ticket} (hq : c.queue = t :: ts)
    (hprobed : t.probed = none) : Sane c.serve ∧ c.serve.load < c.load := by
  have hweight : t.weight = 2 := by simp [Ticket.weight, hprobed]
  have hstay : c.flights.length < c.flights.length + t.weight := by omega
  have htail : c.queue.tail = ts := by rw [hq]; rfl
  unfold Client.serve
  rw [hq]
  simp only
  cases hop : t.operation with
  | switch url =>
    simp only [hprobed, Option.isSome_none, Bool.false_eq_true, if_false]
    unfold beginSwitch
    simp only
    split
    · exact h.leave hq htail hstay
    · split
      · exact h.leave hq htail hstay
      · rename_i base _
        refine ⟨fun t' ht' hp => ?_, ?_⟩
        · rcases List.mem_cons.1 ht' with rfl | ht'
          · exact ⟨url, hop⟩
          · rw [htail] at ht'
            exact h t' (by rw [hq]; exact List.mem_cons_of_mem t ht') hp
        · have hone : Ticket.weight { t with probed := some base } = 1 := rfl
          simp only [load, hq, List.tail_cons, Numbered.total_cons, hweight, hone]
          omega
  | ask q =>
    simp only
    unfold beginQuestion
    split
    · exact h.leave hq htail hstay
    · refine h.leave hq htail ?_
      simp only [List.length_append, List.length_singleton]
      omega
  | url => exact h.leave hq htail hstay
  | dialect => exact h.leave hq htail hstay

/-- Every event that comes of itself leaves less to do. -/
theorem Sane.step (h : Sane c) {network : Network} {e : Event} (he : c.next? network = some e) :
    Sane (c.step e) ∧ (c.step e).load < c.load := by
  unfold next? at he
  split at he
  · rename_i t ts hq
    split at he
    · rename_i base hprobed
      obtain ⟨url, hop⟩ := h t (by rw [hq]; exact List.mem_cons_self ..) (by rw [hprobed]; rfl)
      have hweight : c.flights.length < c.flights.length + t.weight := by
        simp [Ticket.weight, hprobed]
      have htail : c.queue.tail = ts := by rw [hq]; rfl
      cases he
      simp only [Client.step, hq, hop, hprobed]
      unfold endSwitch
      split <;> exact h.leave hq htail hweight
    · rename_i hprobed
      cases he
      exact h.serve hq hprobed
  · rename_i hq
    split at he
    · rename_i f fs hf
      cases he
      simp only [Client.step, hf, List.find?_cons_of_pos (a := f) (l := fs)
        (p := fun g => g.id = f.id) (by simp)]
      refine ⟨h, ?_⟩
      have hless := List.length_filter_le (fun g : Flight => g.id ≠ f.id) fs
      simp only [load, finish, hf, List.filter_cons_of_neg (a := f) (l := fs)
        (p := fun g => g.id ≠ f.id) (by simp), List.length_cons]
      omega
    · cases he

end Client

end PromqlServer.Prometheus
