import PromqlServer.Proofs.Document.Slots

/-!
What one turn of a call does to the document cache. `turn_cases` lists the turns of `open`,
`change`, `close`, `commit`, `shutdown` and the others, each with the conditions under which it is
taken and with the store and the call that it leaves. `LockStep`, `DataStep`, `TableStep` and
`CancelStep` are what the list says about one part of the store each. Before it stand the facts
about scopes and look-ups that it is used with.
-/

namespace PromqlServer.Document

/-! ## Scopes -/

namespace Scope

theorem isCancelled_iff {cancelled : Cancellations} {s : Scope} :
    isCancelled cancelled s = true ↔ ∃ t ∈ cancelled, t <+: s := by
  simp [isCancelled]

theorem child_inj {s : Scope} {m n : Nat} : s.child m = s.child n ↔ m = n := by
  simp [child]

theorem length_child (s : Scope) (n : Nat) : (s.child n).length = s.length + 1 := by
  simp [child]

theorem prefix_child (s : Scope) (n : Nat) : s <+: s.child n := List.prefix_append s [n]

/-- What stands above a child is the child or stands above its parent. -/
theorem prefix_child_iff {t s : Scope} {n : Nat} : t <+: s.child n ↔ t = s.child n ∨ t <+: s := by
  rw [child, List.prefix_concat_iff]

theorem not_child_prefix {s : Scope} {n : Nat} : ¬ s.child n <+: s := by
  intro h
  have := h.length_le
  rw [length_child] at this
  omega

theorem not_grandchild_prefix {s : Scope} {m n : Nat} : ¬ (s.child m).child n <+: s := by
  intro h
  have := h.length_le
  rw [length_child, length_child] at this
  omega

end Scope

/-! ## Look-ups and checks -/

namespace Store

theorem held_eq_some_iff {s : Store} {id k : Nat} {d : Slot} :
    s.held id k = some d ↔ s.slots[k]? = some d ∧ d.queue.head? = some id := by
  simp [held, Option.filter_eq_some_iff]

theorem lookup_eq_none_iff {s : Store} {uri : Uri} :
    s.lookup uri = none ↔ ∀ k, (uri, k) ∉ s.table := by
  simp only [lookup, Option.map_eq_none_iff, List.find?_eq_none, decide_eq_true_eq]
  constructor
  · intro h k hk
    exact h (uri, k) hk rfl
  · rintro h ⟨u, k⟩ hk rfl
    exact h k hk

theorem mem_table_of_lookup {s : Store} {uri : Uri} {k : Nat} (h : s.lookup uri = some k) :
    (uri, k) ∈ s.table := by
  obtain ⟨⟨u, j⟩, hf, rfl⟩ := Option.map_eq_some_iff.1 h
  have hu : u = uri := by simpa using List.find?_some hf
  rw [← hu]
  exact List.mem_of_find?_eq_some hf

theorem check_reply_ne_opened {s s' : Store} {k : Nat} {d : Slot} {work : Work} {reply : Reply}
    (h : s.check k d work = .done s' reply) : s' = s.release k ∧ ∀ e, reply ≠ .opened e := by
  unfold check at h
  cases work with
  | change content version =>
    simp only at h
    split at h
    · cases h; exact ⟨rfl, nofun⟩
    · split at h
      · cases h; exact ⟨rfl, nofun⟩
      · cases h
  | close => cases h; exact ⟨rfl, nofun⟩
  | version =>
    simp only at h
    split at h <;> cases h <;> exact ⟨rfl, nofun⟩
  | snapshot =>
    simp only at h
    split at h <;> cases h <;> exact ⟨rfl, nofun⟩
  | commit edition report =>
    simp only at h
    split at h
    · cases h; exact ⟨rfl, nofun⟩
    · cases h

end Store

/-! ## Turns -/

/-- Calls that end without having come to a lock. -/
def Call.isBrief : Call → Bool
  | .track .. | .isOpen _ | .size | .find .. | .remove _ => true
  | _ => false

/-- Replies of calls that end without having come to a lock, and without a new document. -/
def Reply.isBrief : Reply → Bool
  | .isOpen _ | .size _ | .failed _ => true
  | _ => false

theorem Reply.ne_opened_of_isBrief {reply : Reply} (h : reply.isBrief = true) (e : Edition) :
    reply ≠ .opened e := by
  rintro rfl
  cases h

open Store in
/-- The turns of the call `id` on the store `s`. -/
inductive Turned (s : Store) (id : Nat) : Call → Turn → Prop
  | blocked {c : Call} : Turned s id c .blocked
  /-- A reply that leaves no trace in the store. -/
  | answered {c : Call} {reply : Reply} (hc : c.isBrief = true)
      (ht : s.turn id c = .done s reply) (hr : reply.isBrief = true) :
      Turned s id c (.done s reply)
  | tracked {uri : Uri} {content : String} {version : Int}
      (hnone : s.lookup uri = none) (hlive : s.isCancelled s.lifetime = false) :
      Turned s id (.track uri content version)
        (.done (s.withSlot uri content version)
          (.opened ⟨uri, version, content, s.slots.length, s.editionScope s.slots.length 0⟩))
  | found {uri : Uri} {work : Work} {k : Nat} (hk : s.lookup uri = some k) :
      Turned s id (.find uri work) (.next s (.arrive k work))
  | removed {uri : Uri} {k : Nat} (hk : s.lookup uri = some k) :
      Turned s id (.remove uri)
        (.next { s with table := s.table.filter fun entry => entry.1 ≠ uri } (.cancelSlot k))
  | slotCancelled {k : Nat} :
      Turned s id (.cancelSlot k) (.next (s.cancel (s.slotScope k)) (.arrive k .close))
  | arrived {k : Nat} {work : Work} :
      Turned s id (.arrive k work) (.next (s.arrive id k) (.queued k work))
  /-- Under the lock there is nothing to change. -/
  | left {k : Nat} {d : Slot} {work : Work} {reply : Reply} (hd : s.held id k = some d)
      (hcheck : s.check k d work = .done (s.release k) reply) (hr : ∀ e, reply ≠ .opened e) :
      Turned s id (.queued k work) (.done (s.release k) reply)
  | admitted {k : Nat} {d : Slot} {content : String} {version : Int} (hd : s.held id k = some d)
      (hlive : s.isCancelled (s.slotScope k) = false) (hlt : d.version < version) :
      Turned s id (.queued k (.change content version)) (.next s (.supersede k content version))
  | passed {k : Nat} {d : Slot} {e : Edition} {report : Report} (hd : s.held id k = some d)
      (hlive : s.isCancelled e.scope = false) (hv : d.version = e.version) :
      Turned s id (.queued k (.commit e report)) (.next s (.publish k report))
  | superseded {k : Nat} {d : Slot} {content : String} {version : Int}
      (hd : s.held id k = some d) :
      Turned s id (.supersede k content version)
        (.next (s.cancel (s.editionScope k d.revision)) (.replace k content version))
  | replaced {k : Nat} {d : Slot} {content : String} {version : Int} (hd : s.held id k = some d) :
      Turned s id (.replace k content version)
        (.done (s.replace k d content version).1
          (.opened ⟨d.uri, version, content, k, s.editionScope k (d.revision + 1)⟩))
  | began {k : Nat} {report : Report} :
      Turned s id (.publish k report) (.next s (.publishing k report))
  | ended {k : Nat} {report : Report} :
      Turned s id (.publishing k report) (.done (s.record k report) .committed)
  | lifetimeEnded : Turned s id .endLifetime (.next (s.cancel s.lifetime) .drain)
  | drained : Turned s id .drain
      (.next { s with table := [] } (.collect (s.table.map Prod.snd) []))
  | collected {closed : List Closed} :
      Turned s id (.collect [] closed) (.done s (.drained closed))
  | joined {k : Nat} {ks : List Nat} {closed : List Closed} :
      Turned s id (.collect (k :: ks) closed) (.next (s.arrive id k) (.collecting k ks closed))
  | taken {k : Nat} {d : Slot} {ks : List Nat} {closed : List Closed}
      (hd : s.held id k = some d) :
      Turned s id (.collecting k ks closed)
        (.next (s.release k) (.collect ks (closed ++ [d.close])))

/-- A turn under the lock is a reply that changes nothing, or lets a change or a publication go
on. -/
theorem queued_cases {s : Store} {id k : Nat} {d : Slot} (work : Work)
    (hd : s.held id k = some d) : Turned s id (.queued k work) (s.check k d work) := by
  cases hc : s.check k d work with
  | blocked =>
    unfold Store.check at hc
    cases work <;> simp only at hc <;> repeat' split at hc
    all_goals cases hc
  | done s' reply =>
    obtain ⟨rfl, hr⟩ := Store.check_reply_ne_opened hc
    exact .left hd hc hr
  | next s' call =>
    unfold Store.check at hc
    cases work with
    | change content version =>
      simp only at hc
      split at hc
      · cases hc
      · rename_i hlive
        split at hc
        · cases hc
        · rename_i hlt
          cases hc
          exact .admitted hd (by simpa using hlive) (by omega)
    | commit e report =>
      simp only at hc
      split at hc
      · cases hc
      · rename_i hlive
        cases hc
        simp only [ne_eq, Bool.or_eq_true, decide_eq_true_eq, not_or, Bool.not_eq_true,
          Decidable.not_not] at hlive
        exact .passed hd hlive.1 hlive.2
    | close => cases hc
    | version => simp only at hc; split at hc <;> cases hc
    | snapshot => simp only at hc; split at hc <;> cases hc

theorem turn_cases (s : Store) (id : Nat) (c : Call) : Turned s id c (s.turn id c) := by
  cases c with
  | track uri content version =>
    have hturn : s.turn id (.track uri content version)
        = .done (s.track uri content version).1 (s.track uri content version).2 := rfl
    rw [hturn]
    unfold Store.track at hturn ⊢
    split at hturn
    · rename_i hsome
      rw [if_pos hsome]
      exact .answered rfl hturn rfl
    · rename_i hnone
      rw [if_neg hnone]
      split at hturn
      · rename_i hended
        rw [if_pos hended]
        exact .answered rfl hturn rfl
      · rename_i hlive
        rw [if_neg hlive]
        exact .tracked (by simpa using hnone) (by simpa using hlive)
  | isOpen uri => exact .answered rfl rfl rfl
  | size => exact .answered rfl rfl rfl
  | find uri work =>
    cases hlook : s.lookup uri with
    | none =>
      have hturn : s.turn id (.find uri work) = .done s (.failed (.expired uri)) := by
        simp only [Store.turn, hlook]
      rw [hturn]
      exact .answered rfl hturn rfl
    | some k =>
      simp only [Store.turn, hlook]
      exact .found hlook
  | remove uri =>
    cases hlook : s.lookup uri with
    | none =>
      have hturn : s.turn id (.remove uri) = .done s (.failed (.expired uri)) := by
        simp only [Store.turn, hlook]
      rw [hturn]
      exact .answered rfl hturn rfl
    | some k =>
      simp only [Store.turn, hlook]
      exact .removed hlook
  | cancelSlot k => exact .slotCancelled
  | arrive k work => exact .arrived
  | queued k work =>
    simp only [Store.turn]
    split
    · exact .blocked
    · exact queued_cases work ‹_›
  | supersede k content version =>
    simp only [Store.turn]
    split
    · exact .blocked
    · exact .superseded ‹_›
  | replace k content version =>
    simp only [Store.turn]
    split
    · exact .blocked
    · exact .replaced ‹_›
  | publish k report => exact .began
  | publishing k report => exact .ended
  | endLifetime => exact .lifetimeEnded
  | drain => exact .drained
  | collect ks closed =>
    cases ks with
    | nil => exact .collected
    | cons k ks => exact .joined
  | collecting k ks closed =>
    simp only [Store.turn]
    split
    · exact .blocked
    · exact .taken ‹_›

/-- The store after a turn. -/
def Turn.store? : Turn → Option Store
  | .blocked => none
  | .next s _ | .done s _ => some s

/-- The call after a turn. -/
def Turn.call? : Turn → Option Call
  | .next _ c => some c
  | _ => none

/-! ## Locks -/

namespace Call

/-- The slot in whose queue the call stands. -/
def place? : Call → Option Nat
  | .queued k _ | .supersede k _ _ | .replace k _ _ | .publish k _ | .publishing k _
  | .collecting k _ _ => some k
  | _ => none

/-- The call is past the check under the lock, and goes on under the lock. -/
def holdsLock : Call → Bool
  | .supersede .. | .replace .. | .publish .. | .publishing .. => true
  | _ => false

/-- The slots that the call has to do with. -/
def mentions : Call → List Nat
  | .cancelSlot k | .arrive k _ | .queued k _ | .supersede k _ _ | .replace k _ _ | .publish k _
  | .publishing k _ => [k]
  | .collect ks _ => ks
  | .collecting k ks _ => k :: ks
  | _ => []

theorem place?_of_isBrief {c : Call} (h : c.isBrief = true) : c.place? = none := by
  cases c <;> first | rfl | cases h

end Call

namespace Store

theorem head_of_held {s : Store} {id k : Nat} {d : Slot} (h : s.held id k = some d) :
    (s.queueOf k).head? = some id := by
  obtain ⟨hk, hhead⟩ := held_eq_some_iff.1 h
  rw [queueOf_eq hk]
  exact hhead

end Store

/-- What a turn does at the locks: nothing, the call comes to a lock, or it gives one away. -/
inductive LockStep (s s' : Store) (id : Nat) (c : Call) (after : Option Call) : Prop
  | stays (hq : ∀ j, s'.queueOf j = s.queueOf j) (hp : after.bind Call.place? = c.place?)
      (hh : ∀ c', after = some c' → c'.holdsLock = true → c.holdsLock = true ∨
        ∀ k, c.place? = some k → (s.queueOf k).head? = some id)
  | arrives (k : Nat) (c' : Call) (hk : k ∈ c.mentions) (hq : s' = s.arrive id k)
      (hp : c.place? = none) (ha : after = some c') (hp' : c'.place? = some k)
      (hh : c'.holdsLock = false)
  | leaves (k : Nat) (hq : ∀ j, s'.queueOf j = if j = k then (s.queueOf j).tail else s.queueOf j)
      (hp : c.place? = some k) (hp' : after.bind Call.place? = none)
      (hh : c.holdsLock = true ∨ (s.queueOf k).head? = some id)

theorem Turned.lockStep {s s' : Store} {id : Nat} {c : Call} {t : Turn} (h : Turned s id c t)
    (hs : t.store? = some s') : LockStep s s' id c t.call? := by
  cases h with
  | blocked => cases hs
  | answered hc =>
    cases hs
    exact .stays (fun _ => rfl) (Call.place?_of_isBrief hc).symm nofun
  | tracked => cases hs; exact .stays (s.queueOf_withSlot _ _ _) rfl nofun
  | found => cases hs; exact .stays (fun _ => rfl) rfl (by rintro _ ⟨⟩ ⟨⟩)
  | removed => cases hs; exact .stays (fun _ => rfl) rfl (by rintro _ ⟨⟩ ⟨⟩)
  | slotCancelled => cases hs; exact .stays (fun _ => rfl) rfl (by rintro _ ⟨⟩ ⟨⟩)
  | arrived => cases hs; exact .arrives _ _ (by simp [Call.mentions]) rfl rfl rfl rfl rfl
  | left hd =>
    cases hs
    exact .leaves _ (s.queueOf_release _) rfl rfl (Or.inr (Store.head_of_held hd))
  | admitted hd =>
    cases hs
    refine .stays (fun _ => rfl) rfl fun _ _ _ => Or.inr ?_
    rintro _ ⟨⟩
    exact Store.head_of_held hd
  | passed hd =>
    cases hs
    refine .stays (fun _ => rfl) rfl fun _ _ _ => Or.inr ?_
    rintro _ ⟨⟩
    exact Store.head_of_held hd
  | superseded => cases hs; exact .stays (fun _ => rfl) rfl fun _ _ _ => Or.inl rfl
  | replaced => cases hs; exact .leaves _ (s.queueOf_replace _ _ _ _) rfl rfl (Or.inl rfl)
  | began => cases hs; exact .stays (fun _ => rfl) rfl fun _ _ _ => Or.inl rfl
  | ended => cases hs; exact .leaves _ (s.queueOf_record _ _) rfl rfl (Or.inl rfl)
  | lifetimeEnded => cases hs; exact .stays (fun _ => rfl) rfl (by rintro _ ⟨⟩ ⟨⟩)
  | drained => cases hs; exact .stays (fun _ => rfl) rfl (by rintro _ ⟨⟩ ⟨⟩)
  | collected => cases hs; exact .stays (fun _ => rfl) rfl nofun
  | joined => cases hs; exact .arrives _ _ (by simp [Call.mentions]) rfl rfl rfl rfl rfl
  | taken hd =>
    cases hs
    exact .leaves _ (s.queueOf_release _) rfl rfl (Or.inr (Store.head_of_held hd))

/-! ## Data, table and cancellations -/

/-- What a turn does to the data of documents: nothing, a new document, a new text, or a report.
Only the second and the third hand out an edition. -/
inductive DataStep (s s' : Store) (id : Nat) (c : Call) (t : Turn) : Prop
  | same (hd : ∀ j, s'.dataOf j = s.dataOf j) (hr : ∀ u e, t ≠ .done u (.opened e))
  | tracked (uri : Uri) (content : String) (version : Int) (hc : c = .track uri content version)
      (hnone : s.lookup uri = none) (hlive : s.isCancelled s.lifetime = false)
      (hs : s' = s.withSlot uri content version)
      (ht : t = .done s' (.opened
        ⟨uri, version, content, s.slots.length, s.editionScope s.slots.length 0⟩))
  | replaced (k : Nat) (d : Slot) (content : String) (version : Int)
      (hc : c = .replace k content version) (hd : s.slots[k]? = some d)
      (hs : s' = (s.replace k d content version).1)
      (ht : t = .done s' (.opened
        ⟨d.uri, version, content, k, s.editionScope k (d.revision + 1)⟩))
  | recorded (k : Nat) (report : Report) (hc : c = .publishing k report)
      (hs : s' = s.record k report) (hr : ∀ u e, t ≠ .done u (.opened e))

theorem Turned.dataStep {s s' : Store} {id : Nat} {c : Call} {t : Turn} (h : Turned s id c t)
    (hs : t.store? = some s') : DataStep s s' id c t := by
  cases h with
  | blocked => cases hs
  | answered _ _ hr =>
    cases hs
    exact .same (fun _ => rfl) fun _ e he => Reply.ne_opened_of_isBrief hr e (by cases he; rfl)
  | tracked hnone hlive => cases hs; exact .tracked _ _ _ rfl hnone hlive rfl rfl
  | found => cases hs; exact .same (fun _ => rfl) nofun
  | removed => cases hs; exact .same (fun _ => rfl) nofun
  | slotCancelled => cases hs; exact .same (fun _ => rfl) nofun
  | arrived => cases hs; exact .same (s.dataOf_arrive id _) nofun
  | left _ _ hr =>
    cases hs
    exact .same (s.dataOf_release _) fun _ e he => hr e (by cases he; rfl)
  | admitted => cases hs; exact .same (fun _ => rfl) nofun
  | passed => cases hs; exact .same (fun _ => rfl) nofun
  | superseded => cases hs; exact .same (fun _ => rfl) nofun
  | replaced hd =>
    cases hs
    exact .replaced _ _ _ _ rfl (Store.held_eq_some_iff.1 hd).1 rfl rfl
  | began => cases hs; exact .same (fun _ => rfl) nofun
  | ended => cases hs; exact .recorded _ _ rfl rfl nofun
  | lifetimeEnded => cases hs; exact .same (fun _ => rfl) nofun
  | drained => cases hs; exact .same (fun _ => rfl) nofun
  | collected => cases hs; exact .same (fun _ => rfl) nofun
  | joined => cases hs; exact .same (s.dataOf_arrive id _) nofun
  | taken => cases hs; exact .same (s.dataOf_release _) nofun

/-- Slots are never removed, and the URI of a slot stays. -/
theorem DataStep.dataOf_uri {s s' : Store} {id : Nat} {c : Call} {t : Turn}
    (h : DataStep s s' id c t) {k : Nat} {d : Slot} (hd : s.dataOf k = some d) :
    ∃ d', s'.dataOf k = some d' ∧ d'.uri = d.uri := by
  cases h with
  | same hsame => exact ⟨d, by rw [hsame, hd], rfl⟩
  | tracked _ _ _ _ _ _ hs =>
    have hlt := Store.lt_of_dataOf hd
    exact ⟨d, by rw [hs, Store.dataOf_withSlot, if_neg (by omega), hd], rfl⟩
  | replaced j d0 _ _ _ hd0 hs =>
    rw [hs, Store.dataOf_replace hd0]
    split
    · rename_i hkj
      rw [hkj, Store.dataOf_eq hd0] at hd
      cases hd
      exact ⟨_, rfl, rfl⟩
    · exact ⟨d, hd, rfl⟩
  | recorded _ _ _ hs =>
    rw [hs, Store.dataOf_record]
    split
    · exact ⟨d.recorded _, by rw [hd]; rfl, rfl⟩
    · exact ⟨d, hd, rfl⟩

theorem DataStep.length_le {s s' : Store} {id : Nat} {c : Call} {t : Turn}
    (h : DataStep s s' id c t) : s.slots.length ≤ s'.slots.length := by
  apply Nat.le_of_not_lt
  intro hlt
  have hsome := Store.dataOf_isSome_iff.2 hlt
  obtain ⟨d, hd⟩ := Option.isSome_iff_exists.1 hsome
  obtain ⟨d', hd', _⟩ := h.dataOf_uri hd
  exact absurd (Store.lt_of_dataOf hd') (Nat.lt_irrefl _)

/-- What a turn does to the table. -/
inductive TableStep (s s' : Store) (c : Call) (after : Option Call) : Prop
  | same (ht : s'.table = s.table)
  | tracked (uri : Uri) (content : String) (version : Int) (hnone : s.lookup uri = none)
      (hs : s' = s.withSlot uri content version) (hc : c = .track uri content version)
  | removed (uri : Uri) (k : Nat) (hk : s.lookup uri = some k) (hc : c = .remove uri)
      (hs : s' = { s with table := s.table.filter fun entry => entry.1 ≠ uri })
      (ha : after = some (.cancelSlot k))
  | drained (hc : c = .drain) (hs : s' = { s with table := [] })
      (ha : after = some (.collect (s.table.map Prod.snd) []))

theorem Turned.tableStep {s s' : Store} {id : Nat} {c : Call} {t : Turn} (h : Turned s id c t)
    (hs : t.store? = some s') : TableStep s s' c t.call? := by
  cases h with
  | blocked => cases hs
  | tracked hnone => cases hs; exact .tracked _ _ _ hnone rfl rfl
  | removed hk => cases hs; exact .removed _ _ hk rfl rfl rfl
  | drained => cases hs; exact .drained rfl rfl rfl
  | _ => cases hs; exact .same rfl

/-- What a turn cancels: nothing, a slot, the current edition of a slot, or the lifetime. -/
inductive CancelStep (s s' : Store) (c : Call) (after : Option Call) : Prop
  | same (hc : s'.cancelled = s.cancelled)
  | slot (k : Nat) (hc : c = .cancelSlot k) (hs : s' = s.cancel (s.slotScope k))
      (ha : after = some (.arrive k .close))
  | edition (k : Nat) (d : Slot) (content : String) (version : Int)
      (hc : c = .supersede k content version) (hd : s.slots[k]? = some d)
      (hs : s' = s.cancel (s.editionScope k d.revision))
      (ha : after = some (.replace k content version))
  | lifetime (hc : c = .endLifetime) (hs : s' = s.cancel s.lifetime) (ha : after = some .drain)

theorem Turned.cancelStep {s s' : Store} {id : Nat} {c : Call} {t : Turn} (h : Turned s id c t)
    (hs : t.store? = some s') : CancelStep s s' c t.call? := by
  cases h with
  | blocked => cases hs
  | slotCancelled => cases hs; exact .slot _ rfl rfl rfl
  | superseded hd =>
    cases hs
    exact .edition _ _ _ _ rfl (Store.held_eq_some_iff.1 hd).1 rfl rfl
  | lifetimeEnded => cases hs; exact .lifetime rfl rfl rfl
  | _ => cases hs; exact .same rfl

theorem Turned.lifetime_eq {s s' : Store} {id : Nat} {c : Call} {t : Turn} (h : Turned s id c t)
    (hs : t.store? = some s') : s'.lifetime = s.lifetime := by
  cases h <;> cases hs <;> rfl

end PromqlServer.Document
