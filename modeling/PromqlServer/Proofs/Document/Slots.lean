import PromqlServer.Document.Store

/-!
Two views of the slots of a document cache. `dataOf` is the state of a slot, and `queueOf` is the
queue of its lock. Each operation on the cache has one equation for each view.
-/

namespace PromqlServer.Document

namespace Slot

/-- A slot without its lock. -/
def data (d : Slot) : Slot := { d with queue := [] }

@[simp] theorem data_uri (d : Slot) : d.data.uri = d.uri := rfl
@[simp] theorem data_version (d : Slot) : d.data.version = d.version := rfl
@[simp] theorem data_content (d : Slot) : d.data.content = d.content := rfl
@[simp] theorem data_revision (d : Slot) : d.data.revision = d.revision := rfl
@[simp] theorem data_report (d : Slot) : d.data.report = d.report := rfl
@[simp] theorem data_published (d : Slot) : d.data.published = d.published := rfl
@[simp] theorem data_queue (d : Slot) : d.data.queue = [] := rfl

/-- The data of a document with a new text. -/
def revised (d : Slot) (content : String) (version : Int) : Slot :=
  { d with version, content, revision := d.revision + 1, report := none }

/-- The data of a document for which a report was published. -/
def recorded (d : Slot) (report : Report) : Slot :=
  { d with report := some report, published := true }

end Slot

namespace Store

theorem getElem?_modifySlot (s : Store) (k j : Nat) (f : Slot → Slot) :
    (s.modifySlot k f).slots[j]? = (s.slots[j]?).map fun d => if k = j then f d else d := by
  simp only [modifySlot, List.getElem?_modify]
  rfl

@[simp] theorem length_modifySlot (s : Store) (k : Nat) (f : Slot → Slot) :
    (s.modifySlot k f).slots.length = s.slots.length := by
  simp [modifySlot]

@[simp] theorem modifySlot_table (s : Store) (k : Nat) (f : Slot → Slot) :
    (s.modifySlot k f).table = s.table := rfl

@[simp] theorem modifySlot_cancelled (s : Store) (k : Nat) (f : Slot → Slot) :
    (s.modifySlot k f).cancelled = s.cancelled := rfl

@[simp] theorem modifySlot_lifetime (s : Store) (k : Nat) (f : Slot → Slot) :
    (s.modifySlot k f).lifetime = s.lifetime := rfl

/-- The store with one more document. -/
def withSlot (s : Store) (uri : Uri) (content : String) (version : Int) : Store :=
  { s with
    slots := s.slots ++ [{ uri, version, content }]
    table := s.table ++ [(uri, s.slots.length)] }

/-! ## The line at a lock -/

/-- The calls at the lock of a slot. -/
def queueOf (s : Store) (k : Nat) : List Nat := ((s.slots[k]?).map Slot.queue).getD []

theorem queueOf_eq {s : Store} {k : Nat} {d : Slot} (h : s.slots[k]? = some d) :
    s.queueOf k = d.queue := by
  simp [queueOf, h]

theorem queueOf_modifySlot (s : Store) (k j : Nat) (f : Slot → Slot) :
    (s.modifySlot k f).queueOf j
      = if k = j then ((s.slots[j]?).map fun d => (f d).queue).getD [] else s.queueOf j := by
  unfold queueOf
  rw [getElem?_modifySlot]
  cases s.slots[j]? with
  | none => split <;> rfl
  | some d =>
    by_cases h : k = j <;> simp [h]

theorem queueOf_arrive {s : Store} {k : Nat} (hk : k < s.slots.length) (id j : Nat) :
    (s.arrive id k).queueOf j = if j = k then s.queueOf j ++ [id] else s.queueOf j := by
  unfold arrive
  rw [queueOf_modifySlot]
  by_cases h : k = j
  · subst h
    simp [queueOf, hk]
  · have hne : j ≠ k := fun h' => h h'.symm
    simp [h, hne]

theorem queueOf_release (s : Store) (k j : Nat) :
    (s.release k).queueOf j = if j = k then (s.queueOf j).tail else s.queueOf j := by
  unfold release
  rw [queueOf_modifySlot]
  by_cases h : k = j
  · subst h
    unfold queueOf
    cases s.slots[k]? <;> simp
  · have hne : j ≠ k := fun h' => h h'.symm
    simp [h, hne]

theorem queueOf_withSlot (s : Store) (uri : Uri) (content : String) (version : Int) (j : Nat) :
    (s.withSlot uri content version).queueOf j = s.queueOf j := by
  unfold queueOf withSlot
  by_cases h : j < s.slots.length
  · simp [List.getElem?_append_left h]
  · by_cases h' : j = s.slots.length
    · subst h'
      simp
    · have : s.slots.length + 1 ≤ j := by omega
      simp [List.getElem?_eq_none (show s.slots.length ≤ j by omega),
        List.getElem?_eq_none (show (s.slots ++ [_]).length ≤ j by simpa using this)]

theorem queueOf_replace (s : Store) (k : Nat) (d : Slot) (content : String) (version : Int)
    (j : Nat) : (s.replace k d content version).1.queueOf j
      = if j = k then (s.queueOf j).tail else s.queueOf j := by
  simp only [replace, queueOf_release, queueOf_modifySlot]
  by_cases h : j = k
  · subst h
    simp [queueOf]
  · have hne : ¬ k = j := fun h' => h h'.symm
    simp [h, hne]

theorem queueOf_record (s : Store) (k : Nat) (report : Report) (j : Nat) :
    (s.record k report).queueOf j = if j = k then (s.queueOf j).tail else s.queueOf j := by
  simp only [record, queueOf_release, queueOf_modifySlot]
  by_cases h : j = k
  · subst h
    simp [queueOf]
  · have hne : ¬ k = j := fun h' => h h'.symm
    simp [h, hne]

/-! ## The data of a document -/

/-- A slot without its lock, by its place. -/
def dataOf (s : Store) (k : Nat) : Option Slot := (s.slots[k]?).map Slot.data

theorem dataOf_eq {s : Store} {k : Nat} {d : Slot} (h : s.slots[k]? = some d) :
    s.dataOf k = some d.data := by
  simp [dataOf, h]

theorem slot_of_dataOf {s : Store} {k : Nat} {d : Slot} (h : s.dataOf k = some d) :
    ∃ d', s.slots[k]? = some d' ∧ d'.data = d :=
  Option.map_eq_some_iff.1 h

theorem dataOf_isSome_iff {s : Store} {k : Nat} :
    (s.dataOf k).isSome = true ↔ k < s.slots.length := by
  simp [dataOf]

theorem lt_of_dataOf {s : Store} {k : Nat} {d : Slot} (h : s.dataOf k = some d) :
    k < s.slots.length := by
  rw [← dataOf_isSome_iff, h]
  rfl

theorem dataOf_modifySlot (s : Store) (k j : Nat) (f : Slot → Slot) :
    (s.modifySlot k f).dataOf j
      = (s.slots[j]?).map fun d => if k = j then (f d).data else d.data := by
  unfold dataOf
  rw [getElem?_modifySlot, Option.map_map]
  congr 1
  funext d
  by_cases h : k = j <;> simp [h]

@[simp] theorem dataOf_cancel (s : Store) (scope : Scope) (j : Nat) :
    (s.cancel scope).dataOf j = s.dataOf j := rfl

@[simp] theorem dataOf_arrive (s : Store) (id k j : Nat) :
    (s.arrive id k).dataOf j = s.dataOf j := by
  unfold arrive
  rw [dataOf_modifySlot]
  unfold dataOf
  congr 1
  funext d
  split <;> rfl

@[simp] theorem dataOf_release (s : Store) (k j : Nat) : (s.release k).dataOf j = s.dataOf j := by
  unfold release
  rw [dataOf_modifySlot]
  unfold dataOf
  congr 1
  funext d
  split <;> rfl

theorem dataOf_withSlot (s : Store) (uri : Uri) (content : String) (version : Int) (j : Nat) :
    (s.withSlot uri content version).dataOf j
      = if j = s.slots.length then some { uri, version, content } else s.dataOf j := by
  unfold dataOf withSlot
  by_cases h : j < s.slots.length
  · have hne : j ≠ s.slots.length := by omega
    simp [List.getElem?_append_left h, hne]
  · by_cases h' : j = s.slots.length
    · subst h'
      simp [Slot.data]
    · have hj : s.slots.length + 1 ≤ j := by omega
      simp [h', List.getElem?_eq_none (show s.slots.length ≤ j by omega),
        List.getElem?_eq_none (show (s.slots ++ [_]).length ≤ j by simpa using hj)]

theorem dataOf_replace {s : Store} {k : Nat} {d : Slot} (hd : s.slots[k]? = some d)
    (content : String) (version : Int) (j : Nat) :
    (s.replace k d content version).1.dataOf j
      = if j = k then some (d.data.revised content version) else s.dataOf j := by
  simp only [replace, dataOf_release]
  rw [dataOf_modifySlot]
  by_cases h : j = k
  · subst h
    simp [hd, Slot.data, Slot.revised]
  · have hne : ¬ k = j := fun h' => h h'.symm
    simp [h, hne, dataOf]

theorem dataOf_record (s : Store) (k : Nat) (report : Report) (j : Nat) :
    (s.record k report).dataOf j
      = if j = k then (s.dataOf j).map fun d => d.recorded report else s.dataOf j := by
  simp only [record, dataOf_release]
  rw [dataOf_modifySlot]
  by_cases h : j = k
  · subst h
    unfold dataOf
    rw [Option.map_map, if_pos rfl]
    congr 1
    funext d
    rw [if_pos rfl]
    rfl
  · have hne : ¬ k = j := fun h' => h h'.symm
    simp [h, hne, dataOf]

end Store

end PromqlServer.Document
