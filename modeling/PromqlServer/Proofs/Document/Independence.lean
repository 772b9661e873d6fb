import PromqlServer.Proofs.Document.Courses

/-!
Documents of different names have nothing to do with each other in a document cache. From all that
is done with it, the operations that are not about one name can be left out: the others come to the
same replies, the version contexts of this name are live or not as before, and its document is in
the same state.
-/

namespace PromqlServer.Document

/-- The operation has to do with documents of this name. -/
def CacheOp.touches (uri : Uri) : CacheOp → Bool
  | .track u _ _ | .change u _ _ | .close u | .version u | .snapshot u | .isOpen u => u = uri
  | .commit u _ _ => u = uri
  | .shutdown | .cancel _ => true
  | .size => false

/-- A reply without the numbers by which a store knows its documents. -/
def Reply.plain : Reply → Reply
  | .opened e => .opened { e with slot := 0, scope := [] }
  | reply => reply

theorem Reply.plain_renumber (depth : Nat) (f : Nat → Nat) (reply : Reply) :
    (reply.renumber depth f).plain = reply.plain := by
  cases reply <;> rfl

theorem Reply.edition?_renumber (depth : Nat) (f : Nat → Nat) (reply : Reply) :
    (reply.renumber depth f).edition? = reply.edition?.map (Edition.renumber depth f) := by
  cases reply <;> rfl

theorem Reply.edition?_regarding (uri : Uri) (reply : Reply) :
    (reply.regarding uri).edition? = reply.edition? := by
  cases reply <;> rfl

namespace Course

/-- What was done about a name and returned. -/
def answersAbout (c : Course) (uri : Uri) : List (CacheOp × Option Reply) :=
  (c.answers.filter fun x => x.1.touches uri).map fun x =>
    (x.1, x.2.map fun reply => (reply.regarding uri).plain)

/-! ## Requests of an operation -/

section CacheOps

variable {uri : Uri} {d : CacheOp} {editions : List Edition}

theorem editionsOf_renumber (depth : Nat) (f : Nat → Nat) (u : Uri) (editions : List Edition) :
    editionsOf u (editions.map (Edition.renumber depth f))
      = (editionsOf u editions).map (Edition.renumber depth f) := by
  simp only [editionsOf, List.filter_map]
  rfl

theorem editionsOf_idem (uri : Uri) (editions : List Edition) :
    editionsOf uri (editionsOf uri editions) = editionsOf uri editions := by
  simp [editionsOf]

/-- An operation about a name finds its edition among those of the name, whatever their numbers. -/
theorem request?_renumber (depth : Nat) (f : Nat → Nat) (hd : d.touches uri = true) :
    d.request? ((editionsOf uri editions).map (Edition.renumber depth f))
      = (d.request? editions).map (Request.renumber depth f) := by
  cases d with
  | commit u number report =>
    cases of_decide_eq_true hd
    simp only [CacheOp.request?, editionsOf_renumber, editionsOf_idem, List.getElem?_map,
      Option.map_map]
    rfl
  | _ => rfl

theorem touches_of_request? {r : Request} (hr : d.request? editions = some r) :
    r.touches uri = d.touches uri := by
  cases d with
  | commit u number report =>
    obtain ⟨e, he, heq⟩ := Option.map_eq_some_iff.1 hr
    cases heq
    simp only [Request.touches, CacheOp.touches, uri_of_editionsOf (List.mem_of_getElem? he)]
  | cancel depth => cases hr
  | _ =>
    cases hr
    rfl

end CacheOps

/-! ## The part of one name -/

/-- The course `part` is the part of `whole` that is about one name. -/
structure Echo (names : List Uri) (uri : Uri) (depth : Nat) (whole part : Course) : Prop where
  lifetime : whole.workspace.store.lifetime.length = depth
  store : Part names uri whole.workspace.store part.workspace.store
  editions : part.editions
    = (editionsOf uri whole.editions).map (Edition.renumber depth (rank names uri))
  answers : part.answers = (whole.answers.filter fun x => x.1.touches uri).map fun x =>
    (x.1, x.2.map fun reply => (reply.regarding uri).renumber depth (rank names uri))

theorem echo_fresh (names : List Uri) (uri : Uri) (lifetime : Scope) :
    Echo names uri lifetime.length { workspace := Workspace.fresh lifetime }
      { workspace := Workspace.fresh lifetime } where
  lifetime := rfl
  store := part_fresh names uri lifetime
  editions := rfl
  answers := rfl

section Steps

variable {names : List Uri} {uri : Uri} {depth : Nat} {whole part c : Course} {d : CacheOp}

theorem effect_frame (s : Store) (editions : List Edition) (d : CacheOp) :
    s.uris <+: (s.effect editions d).1.uris ∧ (s.effect editions d).1.lifetime = s.lifetime := by
  unfold Store.effect
  cases d.request? editions with
  | some r => exact s.perform_frame r
  | none =>
    rcases cancelAll_scopes s d with hsame | ⟨x, -, hcancel⟩
    · rw [hsame]
      exact ⟨List.prefix_rfl, rfl⟩
    · rw [hcancel]
      exact ⟨List.prefix_rfl, rfl⟩

/-- What an operation about the name does on the whole, it does on the part. -/
theorem Echo.effect (h : Echo names uri depth whole part) (hw : whole.Settled)
    (hd : d.touches uri = true)
    (hnames : (whole.workspace.store.effect whole.editions d).1.uris <+: names) :
    Part names uri (whole.workspace.store.effect whole.editions d).1
        (part.workspace.store.effect part.editions d).1 ∧
      (part.workspace.store.effect part.editions d).2
        = (whole.workspace.store.effect whole.editions d).2.map fun reply =>
          (reply.regarding uri).renumber depth (rank names uri) := by
  have hrequest : d.request? part.editions
      = (d.request? whole.editions).map (Request.renumber depth (rank names uri)) := by
    rw [h.editions]
    exact request?_renumber depth (rank names uri) hd
  unfold Store.effect at hnames ⊢
  rw [hrequest]
  cases hr : d.request? whole.editions with
  | some r =>
    simp only [hr] at hnames
    have hperform := h.store.perform (hw.fits hr) hnames ((touches_of_request? hr).trans hd)
    rw [h.lifetime] at hperform
    exact ⟨hperform.1, congrArg some hperform.2⟩
  | none =>
    simp only [Option.map_none, h.store.lifetime]
    refine ⟨?_, trivial⟩
    cases d with
    | cancel n => exact h.store.cancel_above (List.take_prefix n _)
    | _ => exact h.store

/-- What an operation about other names does is not seen on the part, nor does it hand out an
edition of the name. -/
theorem Echo.effect_other (h : Echo names uri depth whole part) (hw : whole.Settled)
    (hd : d.touches uri = false)
    (hnames : (whole.workspace.store.effect whole.editions d).1.uris <+: names) :
    Part names uri (whole.workspace.store.effect whole.editions d).1 part.workspace.store := by
  unfold Store.effect at hnames ⊢
  cases hr : d.request? whole.editions with
  | some r =>
    simp only [hr] at hnames
    exact h.store.perform_other (hw.fits hr) hnames ((touches_of_request? hr).trans hd)
  | none =>
    cases d with
    | cancel n => cases hd
    | _ => exact h.store

/-- The editions that an operation hands out are of the name that it is about. -/
theorem Settled.edition_uri (hc : c.Settled) {e : Edition}
    (he : (c.workspace.store.effect c.editions d).2.bind Reply.edition? = some e) (uri : Uri) :
    d.touches uri = decide (e.uri = uri) := by
  unfold Store.effect at he
  cases hr : d.request? c.editions with
  | none => simp [hr] at he
  | some r =>
    simp only [hr, Option.bind_some] at he
    have hp := hc.orderly.performed r
    cases hreply : (c.workspace.store.perform r).2 with
    | opened e' =>
      rw [hreply] at he hp
      cases he
      rw [← touches_of_request? hr]
      exact (hp.opened hc.orderly).2 uri
    | _ =>
      rw [hreply] at he
      cases he

theorem Echo.take (h : Echo names uri depth whole part) (hw : whole.Settled) (hp : part.Settled)
    (hd : d.touches uri = true) (hnames : (whole.take d).workspace.store.uris <+: names) :
    Echo names uri depth (whole.take d) (part.take d) := by
  obtain ⟨-, hstore, hreply⟩ := hw.attempt d
  obtain ⟨-, hstore', hreply'⟩ := hp.attempt d
  have hwhole : (whole.take d).workspace.store
      = (whole.workspace.store.effect whole.editions d).1 := hstore
  rw [hwhole] at hnames
  obtain ⟨hpart, hsame⟩ := h.effect hw hd hnames
  refine ⟨?_, ?_, ?_, ?_⟩
  · rw [hwhole, (effect_frame _ _ d).2, h.lifetime]
  · rw [hwhole]
    exact hstore' ▸ hpart
  · have hnew : ((part.attempt d).2.bind Reply.edition?).toList
        = (editionsOf uri ((whole.attempt d).2.bind Reply.edition?).toList).map
          (Edition.renumber depth (rank names uri)) := by
      rw [hreply, hreply', hsame]
      cases heffect : (whole.workspace.store.effect whole.editions d).2 with
      | none => rfl
      | some reply =>
        simp only [Option.map_some, Option.bind_some, Reply.edition?_renumber,
          Reply.edition?_regarding]
        cases he : reply.edition? with
        | none => rfl
        | some e =>
          have huri := hw.edition_uri (e := e) (by rw [heffect]; exact he) uri
          rw [hd] at huri
          simp [editionsOf, of_decide_eq_true huri.symm]
    simp only [Course.take, h.editions, hnew, editionsOf, List.filter_append, List.map_append]
  · simp only [Course.take, h.answers, hreply, hreply', hsame, List.filter_append, List.map_append]
    simp [hd]

theorem Echo.take_other (h : Echo names uri depth whole part) (hw : whole.Settled)
    (hd : d.touches uri = false) (hnames : (whole.take d).workspace.store.uris <+: names) :
    Echo names uri depth (whole.take d) part := by
  obtain ⟨-, hstore, hreply⟩ := hw.attempt d
  have hwhole : (whole.take d).workspace.store
      = (whole.workspace.store.effect whole.editions d).1 := hstore
  rw [hwhole] at hnames
  refine ⟨?_, ?_, ?_, ?_⟩
  · rw [hwhole, (effect_frame _ _ d).2, h.lifetime]
  · rw [hwhole]
    exact h.effect_other hw hd hnames
  · have hnew : editionsOf uri ((whole.attempt d).2.bind Reply.edition?).toList = [] := by
      rw [hreply]
      cases he : (whole.workspace.store.effect whole.editions d).2.bind Reply.edition? with
      | none => rfl
      | some e =>
        have huri := hw.edition_uri he uri
        rw [hd] at huri
        simp [editionsOf, of_decide_eq_false huri.symm]
    have hold : editionsOf uri (whole.take d).editions = editionsOf uri whole.editions := by
      have happend : editionsOf uri (whole.take d).editions = editionsOf uri whole.editions
          ++ editionsOf uri ((whole.attempt d).2.bind Reply.edition?).toList :=
        List.filter_append ..
      rw [happend, hnew, List.append_nil]
    rw [hold, h.editions]
  · simp [Course.take, h.answers, hd]

theorem uris_run (ops : List CacheOp) {c : Course} (hc : c.Settled) :
    c.workspace.store.uris <+: (ops.foldl Course.take c).workspace.store.uris := by
  induction ops generalizing c with
  | nil => exact List.prefix_rfl
  | cons d ops ih =>
    obtain ⟨-, hstore, -⟩ := hc.attempt d
    have hgrow := (effect_frame c.workspace.store c.editions d).1
    rw [← hstore] at hgrow
    exact hgrow.trans (ih (hc.take d))

/-- The part of a name goes along with the whole, operation by operation. -/
theorem Echo.run (ops : List CacheOp) (h : Echo names uri depth whole part) (hw : whole.Settled)
    (hp : part.Settled) (hnames : (ops.foldl Course.take whole).workspace.store.uris <+: names) :
    Echo names uri depth (ops.foldl Course.take whole)
      ((ops.filter fun d => d.touches uri).foldl Course.take part) := by
  induction ops generalizing whole part with
  | nil => exact h
  | cons d ops ih =>
    have hnext : (whole.take d).workspace.store.uris <+: names :=
      (uris_run ops (hw.take d)).trans hnames
    cases hd : d.touches uri with
    | true =>
      rw [List.filter_cons_of_pos hd]
      exact ih (h.take hw hp hd hnext) (hw.take d) (hp.take d) hnames
    | false =>
      rw [List.filter_cons_of_neg (by simp [hd])]
      exact ih (h.take_other hw hd hnext) (hw.take d) hp hnames

/-! ## What can be told of the part -/

theorem Echo.answersAbout (h : Echo names uri depth whole part) :
    part.answersAbout uri = whole.answersAbout uri := by
  unfold Course.answersAbout
  rw [h.answers]
  simp only [List.filter_map, List.map_map, Function.comp_def, List.filter_filter, Bool.and_self]
  refine List.map_congr_left fun x _ => ?_
  cases x.2 with
  | none => rfl
  | some reply =>
    have hplain : ((reply.regarding uri).renumber depth (rank names uri)).regarding uri
        = (reply.regarding uri).renumber depth (rank names uri) := by
      cases reply <;> simp [Reply.regarding, Reply.renumber]
    simp only [Option.map_some, hplain, Reply.plain_renumber]

theorem Echo.isLive? (h : Echo names uri depth whole part) (hw : whole.Settled) (number : Nat) :
    part.isLive? uri number = whole.isLive? uri number := by
  unfold Course.isLive?
  rw [h.editions, editionsOf_renumber, editionsOf_idem, List.getElem?_map, Option.map_map]
  cases hn : (editionsOf uri whole.editions)[number]? with
  | none => rfl
  | some e =>
    have hmem := List.mem_of_getElem? hn
    obtain ⟨hslot, n, hscope⟩ := (hw.issued e (List.mem_filter.1 hmem).1).fits ⟨uri, 0, []⟩
    rw [uri_of_editionsOf hmem] at hslot
    have hrenumber : (e.renumber depth (rank names uri)).scope
        = part.workspace.store.editionScope (rank names uri e.slot) n := by
      rw [Edition.renumber, hscope, ← h.lifetime, renumber_editionScope, Store.editionScope,
        Store.slotScope, ← h.store.lifetime]
      rfl
    simp only [Option.map_some, Function.comp_apply, hrenumber, h.store.isCancelled_edition hslot,
      hscope]

theorem Echo.stateOf? (h : Echo names uri depth whole part) :
    part.stateOf? uri = whole.stateOf? uri := by
  unfold Course.stateOf?
  rw [h.store.document?, Option.map_map]
  rfl

end Steps

end Course

/-- Of all that is done with a workspace, the operations about one name come to the same when the
others are left out: each of them returns the same, a `shutdown` as far as it is about this name;
the same editions of the name are live; and its document is at the same version, with the same text,
report and mark of publication, or is not tracked. -/
theorem documents_independent (lifetime : Scope) (ops : List CacheOp) (uri : Uri) :
    let whole := course lifetime ops
    let part := course lifetime (ops.filter fun d => d.touches uri)
    part.answersAbout uri = whole.answersAbout uri ∧
      (∀ number, part.isLive? uri number = whole.isLive? uri number) ∧
      part.stateOf? uri = whole.stateOf? uri := by
  intro whole part
  have hfresh := Course.settled_fresh lifetime
  have hecho : Course.Echo whole.workspace.store.uris uri lifetime.length whole part :=
    (Course.echo_fresh _ uri lifetime).run ops hfresh hfresh List.prefix_rfl
  exact ⟨hecho.answersAbout, hecho.isLive? (Course.settled_course lifetime ops), hecho.stateOf?⟩

end PromqlServer.Document
