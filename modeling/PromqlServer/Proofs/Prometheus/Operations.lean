import PromqlServer.Proofs.Prometheus.Questions

/-!
What `change_data_source`, `url`, `dialect` and the queries of a client mean by themselves, from the
source that is installed and from how the exchange ends: the URL that is asked for, what is returned
and the source that is left installed. The steps of a client come to just this, and so does a client
that performs operations one after the other: a switch that fails leaves everything as it was, and
what is installed is what the last switch that succeeded brought (`switches_all_or_nothing`). The
label of `label_values` gets into its path without being encoded, and with double dots it leaves the
base (`label_leaves_base`).
-/

namespace PromqlServer.Prometheus

/-! ## Operations by themselves -/

/-- The base that a switch probes, none if its URL is empty. -/
def baseAt (url : String) : Except ClientError (Option Base) :=
  if (Text.trimString url).isEmpty then .ok none
  else (Base.parse (Text.trimString url)).map some

theorem baseAt_eq_some {url : String} {base : Base} (h : baseAt url = .ok (some base)) :
    Text.trimString url ≠ "" ∧ Base.parse (Text.trimString url) = .ok base := by
  unfold baseAt at h
  split at h
  · cases h
  · rename_i hne
    refine ⟨fun he => hne (by rw [he]; rfl), ?_⟩
    cases hparse : Base.parse (Text.trimString url) with
    | error e => rw [hparse] at h; cases h
    | ok b => rw [hparse] at h; cases h; rfl

theorem baseAt_eq_none {url : String} (h : baseAt url = .ok none) : Text.trimString url = "" := by
  unfold baseAt at h
  split at h
  · rename_i hempty
    exact String.isEmpty_iff.1 hempty
  · cases hparse : Base.parse (Text.trimString url) <;> rw [hparse] at h <;> cases h

/-- What a switch is to install, by how its probe ends. -/
def Settings.sourceAt (settings : Settings) (respond : Url → Outcome) (url : String) :
    Except ClientError (Option Source) :=
  match baseAt url with
  | .error e => .error e
  | .ok none => .ok none
  | .ok (some base) =>
    let probe := base.rootEndpoint buildInfoPath
    (detectDialect settings.leastVersion probe (respond probe)).map fun dialect =>
      some ⟨Text.trimString url, base, dialect⟩

/-- What comes of a question whose exchange ends. -/
def Source.answer (s : Source) (q : Question) (outcome : Outcome) : Result :=
  match q.read s.dialect outcome with
  | .ok answer => .answered answer
  | .error e => .failed e

/-- An answer is the decoding of the data that the exchange brings, by the dialect of the source. -/
theorem Source.answer_eq_answered_iff {s : Source} {q : Question} {outcome : Outcome} {a : Answer} :
    s.answer q outcome = .answered a ↔
      ∃ data, Carries outcome data ∧ Decodes data s.dialect q a := by
  rw [← Question.read_eq_ok_iff, Source.answer]
  cases q.read s.dialect outcome <;> simp

namespace Operation

/-- The URL that an operation asks for, if it asks for any. -/
def request? (installed : Option Source) : Operation → Option Url
  | .switch text =>
    match baseAt text with
    | .ok (some base) => some (base.rootEndpoint buildInfoPath)
    | _ => none
  | .ask q => installed.map fun source => source.endpointOf q
  | .url | .dialect => none

def result (settings : Settings) (respond : Url → Outcome) (installed : Option Source) :
    Operation → Result
  | .switch text =>
    match settings.sourceAt respond text with
    | .ok source => .switched (source.map Source.dialect)
    | .error e => .failed e
  | .ask q =>
    match installed with
    | none => .failed .notConfigured
    | some source => source.answer q (respond (source.endpointOf q))
  | .url => .url (installedUrl installed)
  | .dialect => .dialect (installed.map Source.dialect)

/-- The source after an operation. -/
def leaves (settings : Settings) (respond : Url → Outcome) (installed : Option Source) :
    Operation → Option Source
  | .switch text =>
    match settings.sourceAt respond text with
    | .ok source => source
    | .error _ => installed
  | _ => installed

/-- The URL that an operation switches to. -/
def target? : Operation → Option String
  | .switch text => some text
  | _ => none

variable {settings : Settings} {respond : Url → Outcome} {installed : Option Source}
  {op : Operation}

/-- A failed operation changes nothing. -/
theorem leaves_of_failed {e : ClientError} (h : op.result settings respond installed = .failed e) :
    op.leaves settings respond installed = installed := by
  cases op with
  | switch text =>
    simp only [result, leaves] at h ⊢
    split at h
    · cases h
    · rfl
  | _ => rfl

end Operation

/-! ## The steps of a client -/

namespace Client

variable {c : Client} {t : Ticket} {ts : List Ticket}

/-- The head of the queue leaves it with its result. -/
def conclude (c : Client) (t : Ticket) (respond : Url → Outcome) : Client :=
  { c with
    installed := t.operation.leaves c.settings respond c.installed
    queue := c.queue.tail
    results := c.results ++ [(t.id, t.operation.result c.settings respond c.installed)] }

theorem beginSwitch_eq (c : Client) (t : Ticket) (url : String) :
    c.beginSwitch t url = match baseAt url with
      | .error e => c.dequeue.finish t.id (.failed e)
      | .ok none => ({ c with installed := none }.dequeue).finish t.id (.switched none)
      | .ok (some base) => { c with
          queue := { t with probed := some base } :: c.queue.tail
          asked := (t.id, base.rootEndpoint buildInfoPath) :: c.asked } := by
  by_cases hempty : (Text.trimString url).isEmpty = true
  · simp only [beginSwitch, baseAt, if_pos hempty]
  · simp only [beginSwitch, baseAt, if_neg hempty]
    generalize Base.parse (Text.trimString url) = parsed
    cases parsed <;> rfl

theorem serve_unprobed (hq : c.queue = t :: ts) (hp : t.probed = none) {url : String}
    (hop : t.operation = .switch url) : c.serve = c.beginSwitch t url := by
  unfold serve
  rw [hq]
  simp [hop, hp]

/-- An operation that asks for nothing is done at once. -/
theorem serve_conclude (hq : c.queue = t :: ts) (hp : t.probed = none)
    (hr : t.operation.request? c.installed = none) (respond : Url → Outcome) :
    c.serve = c.conclude t respond := by
  cases hop : t.operation with
  | switch url =>
    rw [hop] at hr
    simp only [Operation.request?] at hr
    rw [serve_unprobed hq hp hop, beginSwitch_eq]
    simp only [conclude, hop, Operation.leaves, Operation.result, Settings.sourceAt]
    split at hr
    · cases hr
    · rename_i hbase
      cases hb : baseAt url with
      | error e => rfl
      | ok base =>
        cases base with
        | none => rfl
        | some base => exact absurd hb (hbase base)
  | ask q =>
    rw [hop] at hr
    have hnone : c.installed = none := Option.map_eq_none_iff.1 hr
    unfold serve
    simp only [hq, hop, beginQuestion, hnone, conclude, Operation.leaves, Operation.result, dequeue,
      finish]
  | url | dialect =>
    unfold serve
    simp only [hq, hop, conclude, Operation.leaves, Operation.result, dequeue, finish]

/-- A switch to another backend begins with its probe. -/
theorem serve_switch (hq : c.queue = t :: ts) (hp : t.probed = none) {url : String} {base : Base}
    (hop : t.operation = .switch url) (hb : baseAt url = .ok (some base)) :
    c.serve = { c with
      queue := { t with probed := some base } :: ts
      asked := (t.id, base.rootEndpoint buildInfoPath) :: c.asked } := by
  rw [serve_unprobed hq hp hop, beginSwitch_eq, hb]
  simp only [hq, List.tail_cons]

/-- A question is sent to the source that is installed. -/
theorem serve_ask (hq : c.queue = t :: ts) {q : Question} {source : Source}
    (hop : t.operation = .ask q) (hs : c.installed = some source) :
    c.serve = { c with
      queue := ts
      flights := c.flights ++ [⟨t.id, source, q⟩]
      asked := (t.id, source.endpointOf q) :: c.asked } := by
  unfold serve
  rw [hq]
  simp only [hop, beginQuestion, hs, dequeue, hq, List.tail_cons]

/-- A switch ends with its probe. -/
theorem step_probed (hq : c.queue = t :: ts) {url : String} {base : Base}
    (hop : t.operation = .switch url) (hp : t.probed = some base)
    (hb : baseAt url = .ok (some base)) {outcome : Outcome} {respond : Url → Outcome}
    (ho : respond (base.rootEndpoint buildInfoPath) = outcome) :
    c.step (.probed outcome) = c.conclude t respond := by
  subst ho
  simp only [step, hq, hop, hp, endSwitch, conclude, Operation.leaves, Operation.result,
    Settings.sourceAt, hb]
  cases detectDialect c.settings.leastVersion (base.rootEndpoint buildInfoPath)
    (respond (base.rootEndpoint buildInfoPath)) <;> simp [Except.map, dequeue, finish, hq]

/-- A question ends with its exchange. -/
theorem step_answered {id : Nat} {f : Flight} (hf : c.flights.find? (fun f => f.id = id) = some f)
    (outcome : Outcome) :
    c.step (.answered id outcome) = { c with
      flights := c.flights.filter fun f => f.id ≠ id
      results := c.results ++ [(id, f.source.answer f.question outcome)] } := by
  simp only [step, hf]
  rfl

/-- Results stay. -/
theorem results_step (c : Client) (e : Event) : c.results <+: (c.step e).results := by
  cases e with
  | arrive op => exact List.prefix_rfl
  | serve =>
    simp only [step, serve]
    split
    · exact List.prefix_rfl
    · split
      · split
        · exact List.prefix_rfl
        · rw [beginSwitch_eq]
          split <;> first | exact List.prefix_append .. | exact List.prefix_rfl
      · simp only [beginQuestion]
        split <;> first | exact List.prefix_append .. | exact List.prefix_rfl
      · exact List.prefix_append ..
      · exact List.prefix_append ..
  | probed outcome =>
    simp only [step]
    split
    · split
      · simp only [endSwitch]
        split <;> exact List.prefix_append ..
      · exact List.prefix_rfl
    · exact List.prefix_rfl
  | answered id outcome =>
    simp only [step]
    split
    · exact List.prefix_rfl
    · exact List.prefix_append ..

theorem mem_of_result? {id : Nat} {r : Result} (h : c.result? id = some r) :
    (id, r) ∈ c.results := by
  obtain ⟨x, hx, rfl⟩ := Option.map_eq_some_iff.1 h
  obtain rfl : x.1 = id := by simpa using List.find?_some hx
  exact List.mem_of_find?_eq_some hx

/-! ## One operation after the other -/

/-- Nothing is under way, and numbers of operations to come are unused. -/
structure Idle (c : Client) : Prop where
  queue : c.queue = []
  flights : c.flights = []
  results : ∀ x ∈ c.results, x.1 < c.arrived

theorem idle_fresh (settings : Settings) : Idle { settings } := ⟨rfl, rfl, by simp⟩

/-- The client after an operation with nothing else in the way. -/
def performed (c : Client) (network : Network) (op : Operation) : Client :=
  { c with
    installed := op.leaves c.settings (exchange network) c.installed
    results := c.results ++ [(c.arrived, op.result c.settings (exchange network) c.installed)]
    arrived := c.arrived + 1
    asked := ((op.request? c.installed).map fun url => (c.arrived, url)).toList ++ c.asked }

theorem performed_installed (c : Client) (network : Network) (op : Operation) :
    (c.performed network op).installed
      = op.leaves c.settings (exchange network) c.installed := rfl

theorem Idle.performed (h : Idle c) (network : Network) (op : Operation) :
    Idle (c.performed network op) := by
  refine ⟨h.queue, h.flights, fun x hx => ?_⟩
  rcases List.mem_append.1 hx with hx | hx
  · exact Nat.lt_succ_of_lt (h.results x hx)
  · rw [List.mem_singleton.1 hx]
    exact Nat.lt_succ_self _

theorem settleWithin_idle (h : Idle c) (network : Network) (fuel : Nat) :
    settleWithin network fuel c = c := by
  cases fuel with
  | zero => rfl
  | succ fuel => simp [settleWithin, next?, h.queue, h.flights]

theorem settleWithin_step {network : Network} {e : Event} (h : c.next? network = some e)
    (fuel : Nat) : settleWithin network (fuel + 1) c = settleWithin network fuel (c.step e) := by
  simp only [settleWithin, h]

/-- An operation that comes to a client at rest is served at once, and at most one exchange
follows. -/
theorem Idle.settle (h : Idle c) (network : Network) (op : Operation) :
    (c.step (.arrive op)).settle network = c.performed network op := by
  obtain ⟨c', hc'⟩ : ∃ c', c' = c.step (.arrive op) := ⟨_, rfl⟩
  have hq : c'.queue = [{ id := c.arrived, operation := op }] := by simp [hc', step, h.queue]
  have hi : c'.installed = c.installed := by rw [hc']; rfl
  have hf : c'.flights = [] := by rw [hc']; exact h.flights
  have hserve : c'.settle network = settleWithin network 1 c'.serve := by
    have hnext : c'.next? network = some .serve := by simp only [next?, hq]
    rw [Client.settle, hq, hf]
    exact settleWithin_step hnext 1
  rw [← hc', hserve]
  cases hr : op.request? c.installed with
  | none =>
    have hdone : c'.serve = c.performed network op := by
      rw [serve_conclude hq rfl (by rw [hi]; exact hr) (exchange network)]
      simp [conclude, Client.performed, hc', step, h.queue, hr]
    rw [hdone, settleWithin_idle (h.performed network op)]
  | some url =>
    cases op with
    | url | dialect => cases hr
    | switch text =>
      cases hb : baseAt text with
      | error e => simp [Operation.request?, hb] at hr
      | ok base =>
        cases base with
        | none => simp [Operation.request?, hb] at hr
        | some base =>
          rw [serve_switch hq rfl rfl hb, settleWithin_step rfl, settleWithin,
            step_probed rfl rfl rfl hb rfl]
          simp [conclude, Client.performed, hc', step, h.queue, Operation.request?, hb]
    | ask q =>
      obtain ⟨source, hsource, rfl⟩ := Option.map_eq_some_iff.1 hr
      rw [serve_ask hq rfl (hi.trans hsource), hf, List.nil_append, settleWithin_step rfl,
        settleWithin, step_answered (f := ⟨c.arrived, source, q⟩) (by simp)]
      simp [Client.performed, hc', step, h.queue, h.flights, Operation.request?, hsource,
        Operation.leaves, Operation.result]

/-- An operation that nothing else is in the way of returns, with its own result. -/
theorem Idle.perform (h : Idle c) (network : Network) (op : Operation) :
    c.perform network op = (c.performed network op,
      some (op.result c.settings (exchange network) c.installed)) := by
  have hnone : c.results.find? (fun x => x.1 = c.arrived) = none :=
    List.find?_eq_none.2 fun x hx => by simpa using Nat.ne_of_lt (h.results x hx)
  rw [Client.perform, h.settle]
  simp [result?, Client.performed, hnone]

/-- Operations one after the other, each on the network as it is then. What they return comes with
the client. -/
def performAll (c : Client) :
    List (Operation × Network) → Client × List (Operation × Option Result)
  | [] => (c, [])
  | (op, network) :: calls =>
    let (c', result) := c.perform network op
    let (c'', log) := c'.performAll calls
    (c'', (op, result) :: log)

end Client

/-- The URL and the dialect of a switch that succeeded. -/
def switched? : Operation × Option Result → Option (String × Option Dialect)
  | (.switch url, some (.switched dialect)) => some (url, dialect)
  | _ => none

/-- The last switch that succeeded. -/
def lastSwitch? (log : List (Operation × Option Result)) : Option (String × Option Dialect) :=
  log.reverse.findSome? switched?

theorem lastSwitch?_concat (log : List (Operation × Option Result))
    (x : Operation × Option Result) :
    lastSwitch? (log ++ [x]) = (switched? x).or (lastSwitch? log) := by
  rw [lastSwitch?, List.reverse_append, List.reverse_singleton, List.singleton_append,
    List.findSome?_cons]
  cases switched? x <;> rfl

/-- What is installed is what a switch brought: the source of its URL with the dialect that it
returned, no source if its URL was empty, and no source if there was no switch. -/
def Produces (installed : Option Source) : Option (String × Option Dialect) → Prop
  | none => installed = none
  | some (url, none) => Text.trimString url = "" ∧ installed = none
  | some (url, some dialect) => Text.trimString url ≠ "" ∧
    ∃ base, Base.parse (Text.trimString url) = .ok base ∧
      installed = some ⟨Text.trimString url, base, dialect⟩

theorem Produces.url_ne {installed : Option Source} {last : Option (String × Option Dialect)}
    (h : Produces installed last) {source : Source} (hs : installed = some source) :
    source.url ≠ "" := by
  match last, h with
  | none, h => rw [hs] at h; cases h
  | some (_, none), ⟨_, h⟩ => rw [hs] at h; cases h
  | some (_, some _), ⟨hne, _, _, h⟩ =>
    rw [hs] at h
    cases h
    exact hne

/-- What a switch that succeeds brings. -/
theorem sourceAt_produces {settings : Settings} {respond : Url → Outcome} {url : String}
    {source : Option Source} (h : settings.sourceAt respond url = .ok source) :
    Produces source (some (url, source.map Source.dialect)) := by
  simp only [Settings.sourceAt] at h
  split at h
  · cases h
  · rename_i hb
    cases h
    exact ⟨baseAt_eq_none hb, rfl⟩
  · rename_i base hb
    obtain ⟨hne, hparse⟩ := baseAt_eq_some hb
    cases hd : detectDialect settings.leastVersion (base.rootEndpoint buildInfoPath)
        (respond (base.rootEndpoint buildInfoPath)) with
    | error e =>
      rw [hd] at h
      cases h
    | ok dialect =>
      rw [hd] at h
      cases h
      exact ⟨hne, base, hparse, rfl⟩

/-- An operation keeps what is installed in step with the last switch that succeeded. -/
theorem Produces.leaves {installed : Option Source} {log : List (Operation × Option Result)}
    (h : Produces installed (lastSwitch? log)) (settings : Settings) (respond : Url → Outcome)
    (op : Operation) : Produces (op.leaves settings respond installed)
      (lastSwitch? (log ++ [(op, some (op.result settings respond installed))])) := by
  rw [lastSwitch?_concat]
  cases op with
  | switch text =>
    simp only [Operation.result, Operation.leaves]
    cases hs : settings.sourceAt respond text with
    | error e => exact h
    | ok source => exact sourceAt_produces hs
  | _ => exact h

/-- The base of a source that a switch brought was read from a text. -/
theorem Produces.parsed {source : Source} {last : Option (String × Option Dialect)}
    (h : Produces (some source) last) : ∃ text, Base.parse text = .ok source.base := by
  match last, h with
  | none, h => cases h
  | some (_, none), ⟨_, h⟩ => cases h
  | some (url, some _), ⟨_, base, hparse, h⟩ =>
    cases h
    exact ⟨_, hparse⟩

/-! ## Only web servers are installed -/

def Source.OverHttp (s : Source) : Prop :=
  s.base.url.scheme = "http" ∨ s.base.url.scheme = "https"

theorem scheme_of_exchange {network : Network} {url : Url} {response : Response}
    (h : exchange network url = .ok response) : url.scheme = "http" ∨ url.scheme = "https" := by
  rw [exchange] at h
  split at h
  · rename_i hsendable
    rw [isSendable, Bool.and_eq_true, Bool.or_eq_true, decide_eq_true_eq, decide_eq_true_eq]
      at hsendable
    exact hsendable.1
  · cases h

/-- A switch that asks a network succeeds with a web server only. -/
theorem sourceAt_overHttp {settings : Settings} {network : Network} {url : String} {source : Source}
    (h : settings.sourceAt (exchange network) url = .ok (some source)) : source.OverHttp := by
  simp only [Settings.sourceAt] at h
  split at h
  · cases h
  · cases h
  · rename_i base _
    obtain ⟨hscheme, -⟩ := Url.withPath_frame base.url buildInfoPath
    cases houtcome : exchange network (base.rootEndpoint buildInfoPath) with
    | error failure =>
      rw [houtcome, detectDialect] at h
      cases h
    | ok response =>
      cases hdialect : detectDialect settings.leastVersion (base.rootEndpoint buildInfoPath)
          (exchange network (base.rootEndpoint buildInfoPath)) with
      | error e =>
        rw [hdialect] at h
        cases h
      | ok dialect =>
        rw [hdialect] at h
        have hsource : ⟨Text.trimString url, base, dialect⟩ = source :=
          Option.some.inj (Except.ok.inj h)
        have hhttp := scheme_of_exchange houtcome
        rw [Base.rootEndpoint] at hhttp
        rw [← hsource]
        exact hhttp.imp hscheme.symm.trans hscheme.symm.trans

theorem Operation.leaves_overHttp {settings : Settings} {network : Network}
    {installed : Option Source} (h : ∀ source, installed = some source → source.OverHttp)
    (op : Operation) {source : Source}
    (hs : op.leaves settings (exchange network) installed = some source) : source.OverHttp := by
  cases op with
  | switch text =>
    simp only [Operation.leaves] at hs
    split at hs
    · rename_i found hfound
      exact sourceAt_overHttp (hs ▸ hfound)
    · exact h source hs
  | _ => exact h source hs

namespace Client

theorem performAll_spec {c : Client} (hi : Idle c) {past : List (Operation × Option Result)}
    (hp : Produces c.installed (lastSwitch? past))
    (hh : ∀ source, c.installed = some source → source.OverHttp)
    (calls : List (Operation × Network)) :
    Idle (c.performAll calls).1 ∧
    Produces (c.performAll calls).1.installed (lastSwitch? (past ++ (c.performAll calls).2)) ∧
    (∀ source, (c.performAll calls).1.installed = some source → source.OverHttp) ∧
    (∀ x ∈ (c.performAll calls).2, x.2.isSome = true) ∧
    (c.performAll calls).1.settings = c.settings := by
  induction calls generalizing c past with
  | nil => exact ⟨hi, by simpa [performAll] using hp, hh, by simp [performAll], rfl⟩
  | cons call calls ih =>
    obtain ⟨op, network⟩ := call
    have hleaves : ∀ source, (c.performed network op).installed = some source →
        source.OverHttp := by
      intro source hs
      rw [performed_installed] at hs
      exact op.leaves_overHttp hh hs
    simp only [performAll, hi.perform network op]
    obtain ⟨hidle, hproduces, hhttp, hsome, hsettings⟩ := ih (hi.performed network op)
      (hp.leaves c.settings (exchange network) op) hleaves
    refine ⟨hidle, ?_, hhttp, fun x hx => ?_, hsettings⟩
    · rw [← List.append_cons] at hproduces
      exact hproduces
    · rcases List.mem_cons.1 hx with rfl | hx
      · rfl
      · exact hsome x hx

end Client

/-- After any operations on a new client, on networks that may answer differently each time: each of
them has returned, and what is installed is what the last switch that succeeded brought. An
operation that fails next changes nothing. The URL and the dialect are told together, or neither.
Without a source every question fails and nothing is asked for. With one a question asks for one
URL, which is on the server of the source and below its base unless the label of the question leads
up, and the answer is decoded by the dialect of the source. -/
theorem switches_all_or_nothing (settings : Settings) (calls : List (Operation × Network)) :
    let c := (Client.performAll { settings } calls).1
    let log := (Client.performAll { settings } calls).2
    (∀ x ∈ log, x.2.isSome = true) ∧ Produces c.installed (lastSwitch? log) ∧
    (∀ network op,
      (c.perform network op).2 = some (op.result settings (exchange network) c.installed) ∧
      ∀ e, (c.perform network op).2 = some (.failed e) →
        (c.perform network op).1.installed = c.installed) ∧
    (∀ network, (c.perform network .url).2 = some (.url (installedUrl c.installed)) ∧
      (c.perform network .dialect).2 = some (.dialect (c.installed.map Source.dialect))) ∧
    (installedUrl c.installed = "" ↔ c.installed.map Source.dialect = none) ∧
    ∀ network q, match c.installed with
      | none => (c.perform network (.ask q)).2 = some (.failed .notConfigured) ∧
        (c.perform network (.ask q)).1.asked = c.asked
      | some source => ∃ resource url, source.Addressed q resource url ∧
        (c.perform network (.ask q)).1.asked = (c.arrived, url) :: c.asked ∧
        (c.perform network (.ask q)).2 = some (source.answer q (exchange network url)) ∧
        ∀ a, source.answer q (exchange network url) = .answered a ↔
          ∃ data, Carries (exchange network url) data ∧ Decodes data source.dialect q a := by
  intro c log
  have hnone : ∀ source, (none : Option Source) = some source → source.OverHttp := nofun
  obtain ⟨hidle, hproduces, hhttp, hsome, hsettings⟩ := @Client.performAll_spec { settings }
    (Client.idle_fresh settings) [] rfl hnone calls
  refine ⟨hsome, hproduces, fun network op => ?_, fun network => ?_, ?_, fun network q => ?_⟩
  · rw [hidle.perform network op]
    refine ⟨by rw [hsettings], fun e he => ?_⟩
    rw [Client.performed_installed]
    exact Operation.leaves_of_failed (Option.some.inj he)
  · rw [hidle.perform network .url, hidle.perform network .dialect]
    exact ⟨rfl, rfl⟩
  · cases hs : c.installed with
    | none => exact ⟨fun _ => rfl, fun _ => rfl⟩
    | some source => exact ⟨fun he => absurd he (hproduces.url_ne hs), nofun⟩
  · rw [hidle.perform network (.ask q)]
    split
    · rename_i hs
      simp [Client.performed, Operation.result, Operation.request?, c, hs]
    · rename_i source hs
      have hproduced : Produces (some source) (lastSwitch? log) := hs ▸ hproduces
      obtain ⟨text, hparse⟩ := hproduced.parsed
      refine ⟨_, _, Source.addressed_endpointOf hparse (hhttp source hs) q, ?_, ?_,
        fun a => Source.answer_eq_answered_iff⟩
      · simp [Client.performed, Operation.request?, c, hs]
      · simp [Operation.result, c, hs]

/-- A backend below a path, which has no build information. -/
def servedAtProm : Client :=
  (Client.performAll {} [(.switch "http://h/prom", fun _ => .ok ⟨404, .ok "", ""⟩)]).1

/-- The label of a query gets into the path as it is, and the setter of the path resolves its dot
segments: the request leaves the base of the source. -/
theorem label_leaves_base :
    ∃ source url, servedAtProm.installed = some source ∧ source.url = "http://h/prom" ∧
      (servedAtProm.perform (fun _ => .ok ⟨404, .ok "", ""⟩)
        (.ask (.labelValues "../../../../admin"))).1.asked.head? = some (1, url) ∧
      url.write = "http://h/admin/values" ∧ ¬ source.base.IsAbove url := by
  have hinstalled : servedAtProm.installed = some ⟨"http://h/prom",
      ⟨"http", some { host := "h" }, "/prom".toList, false, none, none⟩, .legacy⟩ := by
    decide +kernel
  have hasked : (servedAtProm.perform (fun _ => .ok ⟨404, .ok "", ""⟩)
      (.ask (.labelValues "../../../../admin"))).1.asked.head?
        = some (1, ⟨"http", some { host := "h" }, "/admin/values".toList, false, none, none⟩) := by
    decide +kernel
  refine ⟨_, _, hinstalled, rfl, hasked, by decide +kernel, fun habove => ?_⟩
  have hbelow := habove.path
  revert hbelow
  decide +kernel

-- The second switch fails, and what the first one brought stays.
example : ((Client.performAll {} [(.switch " http://a/ ", fun _ => .ok ⟨404, .ok "", ""⟩),
    (.switch "http://b/", fun _ => .ok ⟨500, .ok "", ""⟩)]).1.installed.map fun source =>
      (source.url, source.dialect)) = some ("http://a/", .legacy) := by
  decide +kernel

end PromqlServer.Prometheus
