import PromqlServer.Proofs.Session.Runs

/-!
The jobs of a session that have to do with the data source. `initialize` and each
`did_change_configuration` that names a URL spawn a job for `change_data_source`: such a job has a
URL to bring to the client of the data source, brings it, and waits for the switch. `Steady.steered`
says all that a step of a session can do to these jobs and to the client.
-/

namespace PromqlServer.Session

open PromqlServer.Document PromqlServer.Prometheus PromqlServer.Query

/-! ## Settings and switches -/

/-- The URL that a handshake asks for, none if it is empty. -/
def greetedUrl (defaultUrl : String) (options : Option Json) : Option String :=
  let url := (options.bind urlSetting).getD defaultUrl
  if url.isEmpty then none else some url

/-- The URL that a message sets. -/
def setting? (s : Session) : Action → Option String
  | .receive (.handshake options) =>
    if s.phase = .created then greetedUrl s.defaultUrl options else none
  | .receive (.configured settings) => if s.phase.isActive then urlSetting settings else none
  | _ => none

/-- The operation that a job hands to the client of the backend with its next step. -/
def operationOf? (s : Session) : Job → Option Operation
  | .switch url => some (.switch url)
  | .looking task position =>
    match s.workspace.reply? task with
    | some (.snapshot document) =>
      (completionContext document.content.toList position).map fun context =>
        .ask (questionFor context)
    | _ => none
  | _ => none

/-- What an action is to the client of the backend. -/
def event? (s : Session) : Action → Option Prometheus.Event
  | .backend e => some e
  | .advance id => ((s.job? id).bind s.operationOf?).map .arrive
  | _ => none

/-- The URLs that messages set in a run, in the order of the messages. -/
def settingsOf (s : Session) : List Action → List String
  | [] => []
  | a :: as => (s.setting? a).toList ++ settingsOf (s.step a) as

/-- What happens to the client of the backend in a run. -/
def eventsOf (s : Session) : List Action → List Prometheus.Event
  | [] => []
  | a :: as => (s.event? a).toList ++ eventsOf (s.step a) as

/-- What a job has to do with the backend in use. -/
inductive Errand where
  | greeting (url : Option String)
  | switch (url : String)
  | switching (operation : Nat) (url : String)

def Job.errand? (defaultUrl : String) : Job → Option Errand
  | .greet options | .welcome options => some (.greeting (greetedUrl defaultUrl options))
  | .switch url => some (.switch url)
  | .switching operation url => some (.switching operation url)
  | _ => none

/-- The URL that is still to be brought to the client of the backend. -/
def Errand.url? : Errand → Option String
  | .greeting url => url
  | .switch url => some url
  | .switching .. => none

def errandsAmong (defaultUrl : String) (jobs : List (Nat × Job)) : List (Nat × Errand) :=
  jobs.filterMap fun x => (x.2.errand? defaultUrl).map fun errand => (x.1, errand)

/-- The jobs that switch the backend or are going to, the oldest first. -/
def errands (s : Session) : List (Nat × Errand) := errandsAmong s.defaultUrl s.jobs

/-- The URLs that are still to be brought to the client of the backend. -/
def pendingUrls (errands : List (Nat × Errand)) : List String :=
  errands.filterMap fun x => x.2.url?

section Errands

variable {s : Session} {id : Nat} {job other : Job}

theorem errandsAmong_append (defaultUrl : String) (l r : List (Nat × Job)) :
    errandsAmong defaultUrl (l ++ r) = errandsAmong defaultUrl l ++ errandsAmong defaultUrl r :=
  List.filterMap_append

theorem errandsAmong_cons (defaultUrl : String) (x : Nat × Job) (xs : List (Nat × Job)) :
    errandsAmong defaultUrl (x :: xs)
      = ((x.2.errand? defaultUrl).map fun errand => (x.1, errand)).toList
        ++ errandsAmong defaultUrl xs := by
  rw [errandsAmong, List.filterMap_cons]
  cases x.2.errand? defaultUrl <;> rfl

theorem mem_errandsAmong {defaultUrl : String} {jobs : List (Nat × Job)} {x : Nat × Errand}
    (h : x ∈ errandsAmong defaultUrl jobs) :
    ∃ job, (x.1, job) ∈ jobs ∧ job.errand? defaultUrl = some x.2 := by
  obtain ⟨y, hy, hx⟩ := List.mem_filterMap.1 h
  obtain ⟨errand, herrand, rfl⟩ := Option.map_eq_some_iff.1 hx
  exact ⟨y.2, hy, herrand⟩

theorem errands_start (s : Session) (job : Job) : (s.start job).errands = s.errands
    ++ ((job.errand? s.defaultUrl).map fun errand => (s.numbered, errand)).toList := by
  have hnone : errandsAmong s.defaultUrl [] = [] := rfl
  simp only [errands, start, errandsAmong_append, errandsAmong_cons, hnone, List.append_nil]

/-- The errands around a job, and when the job is replaced or removed. -/
theorem Distinct.errands (hd : Distinct s.jobs s.numbered) (hm : (id, job) ∈ s.jobs) :
    ∃ l r, s.jobs = l ++ (id, job) :: r ∧
      s.errands = errandsAmong s.defaultUrl l
        ++ ((job.errand? s.defaultUrl).map fun errand => (id, errand)).toList
        ++ errandsAmong s.defaultUrl r ∧
      (∀ other, (s.become id other).errands = errandsAmong s.defaultUrl l
        ++ ((other.errand? s.defaultUrl).map fun errand => (id, errand)).toList
        ++ errandsAmong s.defaultUrl r) ∧
      (s.finish id).errands = errandsAmong s.defaultUrl l ++ errandsAmong s.defaultUrl r := by
  obtain ⟨_, l, r, hjobs, hreplace, herase⟩ := Numbered.split_of_mem hd.nodup hm
  refine ⟨l, r, hjobs, ?_, fun other => ?_, ?_⟩
  · rw [Session.errands, hjobs, errandsAmong_append, errandsAmong_cons, List.append_assoc]
  · rw [Session.errands, Session.become, hreplace, errandsAmong_append, errandsAmong_cons,
      List.append_assoc]
  · rw [Session.errands, Session.finish, herase, errandsAmong_append]

theorem Distinct.errands_become (hd : Distinct s.jobs s.numbered) (hm : (id, job) ∈ s.jobs)
    (h : other.errand? s.defaultUrl = job.errand? s.defaultUrl) :
    (s.become id other).errands = s.errands := by
  obtain ⟨l, r, _, hold, hnew, _⟩ := hd.errands hm
  rw [hnew, hold, h]

theorem Distinct.errands_finish (hd : Distinct s.jobs s.numbered) (hm : (id, job) ∈ s.jobs)
    (h : job.errand? s.defaultUrl = none) : (s.finish id).errands = s.errands := by
  obtain ⟨l, r, _, hold, _, hnew⟩ := hd.errands hm
  rw [hnew, hold, h]
  simp

end Errands

/-! ## What a step is to the backend in use -/

def Job.isGreeting : Job → Bool
  | .greet _ | .welcome _ => true
  | _ => false

def Job.isSwitch : Job → Bool
  | .switch _ => true
  | _ => false

/-- The settings change only when the handshake is answered, and of the jobs that have a URL to
bring the oldest goes first. -/
def inTurn (s : Session) : Action → Bool
  | .receive (.configured _) => s.jobs.all fun x => !x.2.isGreeting
  | .advance id =>
    match s.job? id with
    | some (.switch _) => (s.jobs.takeWhile fun x => x.1 ≠ id).all fun x => !x.2.isSwitch
    | _ => true
  | _ => true

/-- Operations come to the client of the backend from jobs only. -/
def Action.IsOwn : Action → Prop
  | .backend (.arrive _) => False
  | a => a.Occurs

/-- What a step can do: it may set a URL, bring one to the client of the backend, and take note of a
switch that is over. -/
inductive Steered (s : Session) (a : Action) (s' : Session) : Prop
  | aside (hset : s.setting? a = none) (hevent : s.event? a = none)
      (herrands : s'.errands = s.errands) (hclient : s'.client = s.client)
      (hphase : s'.phase = .created → s.phase = .created)
  | event (e : Prometheus.Event) (hset : s.setting? a = none) (hevent : s.event? a = some e)
      (herrands : s'.errands = s.errands) (hclient : s'.client = s.client.step e)
      (hphase : s'.phase = .created → s.phase = .created)
      (hown : a.IsOwn → ∀ url, e ≠ .arrive (.switch url))
  | greeted (id : Nat) (url : Option String) (hset : s.setting? a = url)
      (hevent : s.event? a = none) (herrands : s'.errands = s.errands ++ [(id, .greeting url)])
      (hclient : s'.client = s.client) (hcreated : s.phase = .created)
      (hphase : s'.phase ≠ .created)
  | configured (id : Nat) (url : String) (hset : s.setting? a = some url)
      (hevent : s.event? a = none) (herrands : s'.errands = s.errands ++ [(id, .switch url)])
      (hclient : s'.client = s.client) (hphase : s'.phase ≠ .created)
      (hturn : s.inTurn a = true → ∀ x ∈ s.errands, ∀ url, x.2 ≠ .greeting url)
  | welcomed (id id' : Nat) (url : Option String) (l r : List (Nat × Errand))
      (hset : s.setting? a = none) (hevent : s.event? a = none)
      (hold : s.errands = l ++ (id, .greeting url) :: r)
      (hnew : s'.errands = l ++ r ++ (url.map fun url => (id', .switch url)).toList)
      (hclient : s'.client = s.client) (hphase : s'.phase = s.phase)
  | brought (id : Nat) (url : String) (l r : List (Nat × Errand)) (hset : s.setting? a = none)
      (hevent : s.event? a = some (.arrive (.switch url)))
      (hold : s.errands = l ++ (id, .switch url) :: r)
      (hnew : s'.errands = l ++ (id, .switching s.client.arrived url) :: r)
      (hclient : s'.client = s.client.step (.arrive (.switch url))) (hphase : s'.phase = s.phase)
      (hturn : s.inTurn a = true → ∀ x ∈ l, ∀ url', x.2 ≠ .switch url')
  | ended (id operation : Nat) (url : String) (l r : List (Nat × Errand))
      (hset : s.setting? a = none) (hevent : s.event? a = none)
      (hold : s.errands = l ++ (id, .switching operation url) :: r) (hnew : s'.errands = l ++ r)
      (hclient : s'.client = s.client) (hphase : s'.phase = s.phase)
      (hresult : (s.client.result? operation).isSome)

theorem steered_receive (s : Session) (m : Message) :
    Steered s (.receive m) (s.receive m) := by
  have haside : ∀ {s' : Session}, s.setting? (.receive m) = none → s'.errands = s.errands →
      s'.client = s.client → (s'.phase = .created → s.phase = .created) →
      Steered s (.receive m) s' := fun hset herrands hclient hphase =>
    .aside hset rfl herrands hclient hphase
  have hguarded : ∀ method job, s.setting? (.receive m) = none →
      (∀ j, job = some j → j.errand? s.defaultUrl = none) →
      Steered s (.receive m) (s.guarded method job) := by
    intro method job hset hjob
    unfold guarded
    split
    · rename_i j _
      refine haside hset ?_ rfl id
      rw [errands_start, hjob j rfl]
      exact List.append_nil _
    · exact haside hset rfl rfl id
  cases m with
  | handshake options =>
    simp only [receive]
    split
    · rename_i e he
      refine haside ?_ rfl rfl id
      rw [setting?, if_neg]
      intro hcreated
      rw [hcreated] at he
      cases he
    · rename_i phase hok
      obtain ⟨hvalid, rfl⟩ := Phase.advance_eq_ok_iff.1 hok
      have hcreated : s.phase = .created := List.mem_singleton.1 hvalid
      refine .greeted s.numbered (greetedUrl s.defaultUrl options) ?_ rfl
        (errands_start _ _) rfl hcreated (by simp [start])
      rw [setting?, if_pos hcreated]
  | ready =>
    simp only [receive]
    split
    · exact haside rfl rfl rfl id
    · rename_i phase hok
      obtain ⟨hvalid, rfl⟩ := Phase.advance_eq_ok_iff.1 hok
      exact haside rfl ((errands_start _ _).trans (List.append_nil _)) rfl
        fun hcreated => by cases hcreated
  | shutdown =>
    simp only [receive]
    split
    · exact haside rfl rfl rfl id
    · rename_i phase hok
      obtain ⟨hvalid, rfl⟩ := Phase.advance_eq_ok_iff.1 hok
      exact haside rfl ((errands_start _ _).trans (List.append_nil _)) rfl
        fun hcreated => by cases hcreated
  | opened uri text version => exact hguarded _ _ rfl (by rintro _ ⟨⟩; rfl)
  | closed uri => exact hguarded _ _ rfl (by rintro _ ⟨⟩; rfl)
  | changed uri version changes =>
    refine hguarded _ _ rfl fun j hj => ?_
    unfold changeJob at hj
    split at hj <;> cases hj
    rfl
  | complete uri position =>
    simp only [receive]
    split
    · exact haside rfl rfl rfl id
    · exact haside rfl ((errands_start _ _).trans (List.append_nil _)) rfl id
  | configured settings =>
    simp only [receive, guarded, Phase.ensureActive]
    cases hactive : s.phase.isActive with
    | false =>
      refine haside ?_ rfl rfl id
      simp [setting?, hactive]
    | true =>
      cases hurl : urlSetting settings with
      | none =>
        refine haside ?_ rfl rfl id
        simp [setting?, hurl]
      | some url =>
        refine .configured s.numbered url ?_ rfl (errands_start _ _) rfl ?_
          fun hturn x hx url hgreeting => ?_
        · simp [setting?, hactive, hurl]
        · intro hcreated
          have hphase : s.phase = .created := hcreated
          rw [hphase] at hactive
          cases hactive
        · obtain ⟨job, hjob, herrand⟩ := mem_errandsAmong hx
          have hother := List.all_eq_true.1 hturn _ hjob
          rw [hgreeting] at herrand
          cases job <;> first | cases hother; done | cases herrand

/-- A job that starts another one and is over might as well be over first. -/
theorem Distinct.finish_start {s : Session} (hd : Distinct s.jobs s.numbered) {id : Nat} {job : Job}
    (hm : (id, job) ∈ s.jobs) (other : Job) :
    (s.start other).finish id = (s.finish id).start other := by
  have hne : s.numbered ≠ id := Nat.ne_of_gt (hd.below _ hm)
  simp [Session.start, Session.finish, List.filter_append, hne]

/-- No job before one that is in turn has a URL to bring. -/
theorem Distinct.inTurn_switch {s : Session} (hd : Distinct s.jobs s.numbered) {id : Nat}
    {url : String} (hjob : s.job? id = some (.switch url)) {l r : List (Nat × Job)}
    (hjobs : s.jobs = l ++ (id, .switch url) :: r) (h : s.inTurn (.advance id) = true) :
    ∀ x ∈ l, (!x.2.isSwitch) = true := by
  have hnodup := hd.nodup
  rw [hjobs, List.map_append, List.nodup_append] at hnodup
  have hleft : ∀ x ∈ l, decide (x.1 ≠ id) = true := fun x hx => by
    simpa using hnodup.2.2 x.1 (List.mem_map_of_mem hx) id (by simp)
  have hwhile : (s.jobs.takeWhile fun x => x.1 ≠ id) = l := by
    rw [hjobs, List.takeWhile_append_of_pos hleft, List.takeWhile_cons_of_neg (by simp),
      List.append_nil]
  simp only [inTurn, hjob, hwhile] at h
  exact List.all_eq_true.1 h

theorem Distinct.steered_job {s : Session} (hd : Distinct s.jobs s.numbered) {id : Nat} {job : Job}
    (hjob : s.job? id = some job) : Steered s (.advance id) (s.advanceJob id job) := by
  have hm : (id, job) ∈ s.jobs := (Numbered.item?_eq_some_iff hd.nodup).1 hjob
  have hevent : s.event? (.advance id) = (s.operationOf? job).map .arrive := by
    simp [event?, hjob]
  have haside : ∀ {s' : Session}, s.operationOf? job = none → s'.errands = s.errands →
      s'.client = s.client → (s'.phase = .created → s.phase = .created) →
      Steered s (.advance id) s' := fun hnone herrands hclient hphase =>
    .aside rfl (by rw [hevent, hnone]; rfl) herrands hclient hphase
  have hover : ∀ {s' : Session}, s.operationOf? job = none → job.errand? s.defaultUrl = none →
      s'.errands = (s.finish id).errands → s'.client = s.client →
      (s'.phase = .created → s.phase = .created) → Steered s (.advance id) s' :=
    fun hop hnone herrands => haside hop (herrands.trans (hd.errands_finish hm hnone))
  have hbecome : ∀ {s' : Session} (other : Job), s.operationOf? job = none →
      other.errand? s.defaultUrl = job.errand? s.defaultUrl →
      s'.errands = (s.become id other).errands → s'.client = s.client →
      (s'.phase = .created → s.phase = .created) → Steered s (.advance id) s' :=
    fun other hop hsame herrands => haside hop (herrands.trans (hd.errands_become hm hsame))
  cases job with
  | greet options => exact hbecome (.welcome options) rfl rfl rfl rfl fun h => h
  | confirm => exact hover rfl rfl rfl rfl fun h => h
  | farewell => exact hbecome .close rfl rfl rfl rfl fun h => h
  | close => exact hbecome (.closing s.workspace.started) rfl rfl rfl rfl fun h => h
  | enter purpose request =>
    exact hbecome (.handling s.workspace.started) rfl rfl rfl rfl fun h => h
  | look uri position =>
    exact hbecome (.looking s.workspace.started position) rfl rfl rfl rfl fun h => h
  | closing task | handling task | draining task =>
    simp only [advanceJob]
    split
    · exact haside rfl rfl rfl fun h => h
    · exact hover rfl rfl rfl rfl fun h => h
  | asking operation context =>
    simp only [advanceJob]
    split
    · exact haside rfl rfl rfl fun h => h
    · unfold offer
      split <;> exact hover rfl rfl rfl rfl fun h => h
  | watch =>
    simp only [advanceJob]
    split
    · exact hbecome (.draining s.workspace.started) rfl rfl rfl rfl fun h => by cases h
    · exact haside rfl rfl rfl fun h => h
  | looking task position =>
    simp only [advanceJob]
    cases hreply : s.workspace.reply? task with
    | none => exact haside (by simp [operationOf?, hreply]) rfl rfl fun h => h
    | some reply =>
      simp only [look]
      cases reply with
      | snapshot document =>
        simp only
        cases hcontext : completionContext document.content.toList position with
        | none => exact hover (by simp [operationOf?, hreply, hcontext]) rfl rfl rfl fun h => h
        | some context =>
          refine .event (.arrive (.ask (questionFor context))) rfl ?_
            (hd.errands_become hm rfl) rfl (fun h => h) fun _ _ h => by cases h
          simp [hevent, operationOf?, hreply, hcontext]
      | _ => exact hover (by simp [operationOf?, hreply]) rfl rfl rfl fun h => h
  | welcome options =>
    obtain ⟨l, r, _, hold, _, hfinish⟩ := hd.errands hm
    have hold' : s.errands = errandsAmong s.defaultUrl l
        ++ (id, .greeting (greetedUrl s.defaultUrl options)) :: errandsAmong s.defaultUrl r := by
      rw [hold]
      simp [Job.errand?]
    simp only [advanceJob, Session.welcome]
    split
    · rename_i hempty
      refine .welcomed id s.numbered _ _ _ rfl (by rw [hevent]; rfl) hold' ?_ rfl rfl
      rw [greetedUrl, if_pos hempty]
      exact hfinish.trans (List.append_nil _).symm
    · rename_i hurl
      refine .welcomed id s.numbered _ _ _ rfl (by rw [hevent]; rfl) hold' ?_ rfl rfl
      rw [greetedUrl, if_neg hurl]
      have hpass := hd.finish_start hm (.switch ((options.bind urlSetting).getD s.defaultUrl))
      refine (congrArg Session.errands hpass).trans ((errands_start _ _).trans ?_)
      rw [hfinish]
      rfl
  | switch url =>
    obtain ⟨l, r, hjobs, hold, hnew, _⟩ := hd.errands hm
    refine .brought id url (errandsAmong s.defaultUrl l) (errandsAmong s.defaultUrl r) rfl hevent
      ?_ ?_ rfl rfl fun hturn x hx url' hswitch => ?_
    · rw [hold]
      simp [Job.errand?]
    · refine (hnew (.switching s.client.arrived url)).trans ?_
      simp [Job.errand?]
    · obtain ⟨job, hmem, herrand⟩ := mem_errandsAmong hx
      have hother := hd.inTurn_switch hjob hjobs hturn _ hmem
      rw [hswitch] at herrand
      cases job <;> first | cases hother; done | cases herrand
  | switching operation url =>
    obtain ⟨l, r, _, hold, _, hfinish⟩ := hd.errands hm
    simp only [advanceJob]
    cases hresult : s.client.result? operation with
    | none => exact haside rfl rfl rfl fun h => h
    | some result =>
      refine .ended id operation url (errandsAmong s.defaultUrl l) (errandsAmong s.defaultUrl r) rfl
        (by rw [hevent]; rfl) (by rw [hold]; simp [Job.errand?]) ?_ ?_ ?_ (by rw [hresult]; rfl)
      all_goals
        simp only [report]
        split
      · exact hfinish
      · exact hfinish
      all_goals rfl

theorem Steady.steered {s : Session} (h : Steady s) (a : Action) :
    Steered s a (s.step a) := by
  cases a with
  | receive m => exact steered_receive s m
  | advance id =>
    simp only [Session.step]
    cases hjob : s.job? id with
    | none => exact .aside rfl (by simp [event?, hjob]) rfl rfl fun h => h
    | some job => exact h.distinct.steered_job hjob
  | document b => exact .aside rfl rfl rfl rfl fun h => h
  | backend e => exact .event e rfl rfl rfl rfl (fun h => h) (by rintro hown url rfl; exact hown)
  | endLifetime => exact .aside rfl rfl rfl rfl fun h => h

end PromqlServer.Session
