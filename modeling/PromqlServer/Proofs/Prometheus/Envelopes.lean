import Mathlib.Data.List.Nodup
import PromqlServer.Prometheus.Question

/-!
What `get` of the API client makes of an envelope. The data of an answer are read before its status
is looked at, also under an error: what the backend says about the error gets through exactly if the
data are legible (`readOutcome_of_enveloped`). The status of the exchange matters only for what
cannot be read.
-/

namespace PromqlServer

namespace Json

section Records

variable {fields : List (String × Json)}

/-- Without repeated names a field that is there is found once. -/
theorem filter_name (h : (fields.map Prod.fst).Nodup) (name : String) :
    (match fields.filter fun field => field.1 = name with
      | [] => some none
      | [field] => some (some field.2)
      | _ => none) = some ((object fields).lookup name) := by
  rw [lookup, ← List.getLast?_filter]
  cases hfound : fields.filter fun field => field.1 = name with
  | nil => rfl
  | cons x more =>
    cases more with
    | nil => rfl
    | cons y more =>
      have hname : ∀ z ∈ x :: y :: more, z.1 = name := by
        intro z hz
        rw [← hfound] at hz
        exact of_decide_eq_true (List.mem_filter.1 hz).2
      have hsub : (x :: y :: more).Sublist fields := hfound ▸ List.filter_sublist
      have hapart := (List.nodup_cons.1 ((hsub.map Prod.fst).nodup h)).1
      rw [hname x (by simp)] at hapart
      exact absurd (List.mem_map.2 ⟨y, by simp, hname y (by simp)⟩) hapart

theorem record?_object (h : (fields.map Prod.fst).Nodup) (names : List String) (least : Nat) :
    (object fields).record? names least
      = some (names.map fun name => (object fields).lookup name) :=
  (congrArg (fun find => names.mapM find) (funext (filter_name h))).trans List.mapM_pure

theorem stringOrEmpty?_map (text : Option String) :
    stringOrEmpty? (text.map Json.string) = some (text.getD "") := by
  cases text <;> rfl

end Records

end Json

namespace Prometheus

/-! ## Envelopes -/

/-- The body is an object without repeated names, with these texts and these data in it. -/
def Enveloped (body status : String) (errorType error : Option String) (data : Option Json) :
    Prop :=
  ∃ fields, Json.parse? body = some (.object fields) ∧ (fields.map Prod.fst).Nodup ∧
    (Json.object fields).lookup "status" = some (.string status) ∧
    (Json.object fields).lookup "errorType" = errorType.map Json.string ∧
    (Json.object fields).lookup "error" = error.map Json.string ∧
    (Json.object fields).lookup "data" = data

/-- There are no data, or they have the form that is expected. -/
def Legible {α : Type} (read : Json → Option α) (data : Option Json) : Prop :=
  ∀ j, data = some j → j ≠ .null → read j ≠ none

/-- The exchange succeeds with these data, whatever its own status is. -/
def Carries (outcome : Outcome) (data : Json) : Prop :=
  ∃ code body complaint errorType error, outcome = .ok ⟨code, .ok body, complaint⟩ ∧
    (Json.parse? body).bind (Envelope.read? some) = some ⟨"success", some data, errorType, error⟩

section Reading

variable {α : Type} {read : Json → Option α} {body status : String}
  {errorType error : Option String} {data : Option Json} {j : Json} {a : α} {outcome : Outcome}

theorem Envelope.read?_object {fields : List (String × Json)} (hnames : (fields.map Prod.fst).Nodup)
    (hstatus : (Json.object fields).lookup "status" = some (.string status))
    (htype : (Json.object fields).lookup "errorType" = errorType.map Json.string)
    (herror : (Json.object fields).lookup "error" = error.map Json.string) :
    Envelope.read? read (.object fields)
      = (Envelope.dataField? read ((Json.object fields).lookup "data")).map fun data =>
        ⟨status, data, errorType.getD "", error.getD ""⟩ := by
  rw [Envelope.read?, Json.record?_object hnames]
  simp only [List.map_cons, List.map_nil, hstatus, htype, herror, Option.bind_eq_bind,
    Option.bind_some, Json.stringField?, Json.stringOrEmpty?_map]
  cases Envelope.dataField? read ((Json.object fields).lookup "data") <;> rfl

/-- The data field is read, unless it is not legible. -/
theorem Envelope.dataField?_eq_none_iff :
    Envelope.dataField? read data = none ↔ ¬ Legible read data := by
  unfold Envelope.dataField? Legible
  split
  · simp
  · simp
  · rename_i j hnull
    have hj : j ≠ .null := fun hj => hnull (by rw [hj])
    simp [hj]

theorem Envelope.dataField?_some (hj : j ≠ .null) (hread : read j = some a) :
    Envelope.dataField? read (some j) = some (some a) := by
  unfold Envelope.dataField?
  split
  · contradiction
  · rename_i h
    exact absurd (Option.some.inj h) hj
  · rename_i h
    cases h
    rw [hread]
    rfl

/-- The envelope is opened if its data can be read, and blamed on the exchange otherwise. -/
theorem readOutcome_of_enveloped (h : Enveloped body status errorType error data) (code : Nat)
    (complaint : String) : readOutcome read (.ok ⟨code, .ok body, complaint⟩)
      = match Envelope.dataField? read data with
        | some data => Envelope.unwrap ⟨status, data, errorType.getD "", error.getD ""⟩
        | none => .error (.invalidResponse
            (if isSuccess code then complaint else unexpectedStatus code)) := by
  obtain ⟨fields, hbody, hnames, hstatus, htype, herror, rfl⟩ := h
  rw [readOutcome]
  simp only [readAnswer, hbody, Option.bind_some, Envelope.read?_object hnames hstatus htype herror]
  cases Envelope.dataField? read ((Json.object fields).lookup "data") <;> rfl

/-- The data field is read as it is, and then by the reader. -/
theorem Envelope.dataField?_eq_bind (read : Json → Option α) (data : Option Json) :
    Envelope.dataField? read data = (Envelope.dataField? some data).bind (Option.mapM read) := by
  unfold Envelope.dataField?
  split
  · rfl
  · rfl
  · rename_i j _
    simp [Option.mapM_some]

theorem Envelope.read?_eq_bind (read : Json → Option α) (j : Json) :
    Envelope.read? read j = (Envelope.read? some j).bind fun e =>
      (e.data.mapM read).map fun data => ⟨e.status, data, e.errorType, e.error⟩ := by
  unfold Envelope.read?
  cases j.record? ["status", "data", "errorType", "error"] 2 with
  | none => rfl
  | some values =>
    simp only [Option.bind_eq_bind, Option.bind_some]
    split
    · rename_i status data errorType error
      rw [Envelope.dataField?_eq_bind read data]
      cases Json.stringField? status with
      | none => rfl
      | some status =>
        cases Envelope.dataField? some data with
        | none => rfl
        | some found =>
          cases Json.stringOrEmpty? errorType with
          | none => simp
          | some errorType =>
            cases Json.stringOrEmpty? error with
            | none => simp
            | some error => cases hread : found.mapM read <;> simp [hread]
    · rfl

/-- What is read of an exchange are the data that it brings. -/
theorem readOutcome_eq_ok_iff :
    readOutcome read outcome = .ok a ↔ ∃ data, Carries outcome data ∧ read data = some a := by
  constructor
  · intro h
    unfold readOutcome at h
    split at h
    · cases h
    rename_i response
    obtain ⟨code, answer, complaint⟩ := response
    cases answer with
    | error failure => cases h
    | ok body =>
      simp only [readAnswer] at h
      split at h
      · rename_i envelope henvelope
        obtain ⟨j, hparse, hread⟩ := Option.bind_eq_some_iff.1 henvelope
        rw [Envelope.read?_eq_bind] at hread
        obtain ⟨⟨status, data, errorType, error⟩, hraw, hread⟩ := Option.bind_eq_some_iff.1 hread
        obtain ⟨found, hfound, rfl⟩ := Option.map_eq_some_iff.1 hread
        unfold Envelope.unwrap at h
        split at h
        · cases h
        rename_i hstatus
        cases found with
        | none => cases h
        | some found =>
          cases h
          cases data with
          | none => cases hfound
          | some data =>
            have hstatus : status = "success" := Decidable.not_not.1 hstatus
            refine ⟨data, ⟨code, body, complaint, errorType, error, rfl, ?_⟩, ?_⟩
            · rw [hparse, Option.bind_some, hraw, hstatus]
            · simpa [Option.mapM_some] using hfound
      · cases h
  · rintro ⟨data, ⟨code, body, complaint, errorType, error, rfl, hraw⟩, hread⟩
    obtain ⟨j, hparse, hraw⟩ := Option.bind_eq_some_iff.1 hraw
    have hfound : (some data).mapM read = some (some a) := by simp [Option.mapM_some, hread]
    simp [readOutcome, readAnswer, hparse, Envelope.read?_eq_bind read, hraw, hfound,
      Envelope.unwrap]

end Reading

/-- The type and the text of an error get through exactly if there are no data with it or they have
the form of an answer; data of another form hide the error, which is then blamed on the exchange.
Data under a success get through whatever the status of the exchange is. -/
theorem envelopes_surface {α : Type} (read : Json → Option α) (code : Nat) (complaint : String)
    {body status : String} {errorType error : Option String} {data : Option Json}
    (h : Enveloped body status errorType error data) :
    let answer := readOutcome read (.ok ⟨code, .ok body, complaint⟩)
    (status ≠ "success" →
      (answer = .error (.api (errorType.getD "") (error.getD "")) ↔ Legible read data) ∧
      (¬ Legible read data → answer = .error (.invalidResponse
        (if isSuccess code then complaint else unexpectedStatus code)))) ∧
    (status = "success" → ∀ j a, data = some j → j ≠ .null → read j = some a →
      answer = .ok a) := by
  intro answer
  have hanswer : answer = _ := readOutcome_of_enveloped h code complaint
  rw [hanswer]
  refine ⟨fun herror => ⟨?_, fun hlegible => ?_⟩, ?_⟩
  · by_cases hlegible : Legible read data
    · have hread : Envelope.dataField? read data ≠ none :=
        fun hnone => Envelope.dataField?_eq_none_iff.1 hnone hlegible
      obtain ⟨found, hfound⟩ := Option.ne_none_iff_exists'.1 hread
      simp [hfound, Envelope.unwrap, herror, hlegible]
    · simp [Envelope.dataField?_eq_none_iff.2 hlegible, hlegible]
  · rw [Envelope.dataField?_eq_none_iff.2 hlegible]
  · rintro hsuccess j a rfl hj hread
    rw [Envelope.dataField?_some hj hread]
    simp [Envelope.unwrap, hsuccess]

/-- An error without data, with a status that is no success. -/
theorem envelopes_surface_refused :
    readOutcome (Json.list? Json.asString?) (.ok ⟨400, .ok
        "\x7b\"status\":\"error\",\"errorType\":\"bad_data\",\"data\":null\x7d", ""⟩)
      = .error (.api "bad_data" "") := by
  have hparse : Json.parse? "\x7b\"status\":\"error\",\"errorType\":\"bad_data\",\"data\":null\x7d"
      = some (.object [("status", .string "error"), ("errorType", .string "bad_data"),
        ("data", .null)]) := by cbv
  have hbody : Enveloped "\x7b\"status\":\"error\",\"errorType\":\"bad_data\",\"data\":null\x7d"
      "error" (some "bad_data") none (some .null) :=
    ⟨_, hparse, by decide, rfl, rfl, rfl, rfl⟩
  have hlegible : Legible (Json.list? Json.asString?) (some .null) := by
    intro j hj hnull
    exact absurd (Option.some.inj hj).symm hnull
  exact (((envelopes_surface _ 400 "" hbody).1 (by decide)).1).2 hlegible

/-- An object under an error hides the error from whoever asks for a list. -/
theorem error_hidden_by_data :
    Question.read .current (.labelNames none) (.ok ⟨400, .ok ("\x7b\"status\":\"error\"," ++
        "\"errorType\":\"bad_data\",\"error\":\"invalid match[]\",\"data\":\x7b\x7d\x7d"), ""⟩)
      = .error (.invalidResponse "Unexpected status: 400 Bad Request") := by
  decide +kernel

end Prometheus

end PromqlServer
