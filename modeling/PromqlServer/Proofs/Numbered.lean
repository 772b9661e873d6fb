/-!
Lists of numbered entries, as the unfinished tasks of a workspace and the jobs of a session are
kept: what is found under a number after an entry is added, replaced or removed, that numbers stay
distinct, and what the entries weigh together.
-/

namespace PromqlServer.Numbered

variable {α : Type}

/-- What stands under a number. -/
def item? (xs : List (Nat × α)) (id : Nat) : Option α :=
  (xs.find? fun x => x.1 = id).map Prod.snd

@[simp] theorem item?_nil (id : Nat) : item? ([] : List (Nat × α)) id = none := rfl

theorem item?_cons (x : Nat × α) (xs : List (Nat × α)) (id : Nat) :
    item? (x :: xs) id = if x.1 = id then some x.2 else item? xs id := by
  by_cases h : x.1 = id <;> simp [item?, h]

/-- Numbers that are too large are not used. -/
theorem item?_eq_none {xs : List (Nat × α)} {bound id : Nat} (h : ∀ x ∈ xs, x.1 < bound)
    (hid : bound ≤ id) : item? xs id = none := by
  rw [item?, List.find?_eq_none.2, Option.map_none]
  intro x hx
  have hlt := h x hx
  simp only [decide_eq_true_eq]
  omega

theorem item?_concat (xs : List (Nat × α)) (n : Nat) (a : α) (h : item? xs n = none) (id : Nat) :
    item? (xs ++ [(n, a)]) id = if id = n then some a else item? xs id := by
  induction xs with
  | nil =>
    rw [List.nil_append, item?_cons]
    by_cases hid : n = id <;> simp [hid, eq_comm]
  | cons x xs ih =>
    rw [item?_cons] at h
    split at h
    · cases h
    · rename_i hx
      rw [List.cons_append, item?_cons, item?_cons, ih h]
      by_cases hxid : x.1 = id
      · have hne : id ≠ n := fun he => hx (hxid.trans he)
        simp [hxid, hne]
      · simp [hxid]

theorem item?_replace (xs : List (Nat × α)) (n : Nat) (a : α) (id : Nat) :
    item? (xs.map fun x => if x.1 = n then (n, a) else x) id
      = if id = n then (item? xs n).map fun _ => a else item? xs id := by
  induction xs with
  | nil => simp
  | cons x xs ih =>
    rw [List.map_cons, item?_cons, item?_cons, item?_cons, ih]
    by_cases hx : x.1 = n
    · by_cases hid : id = n
      · simp [hx, hid]
      · have hne : ¬ n = id := fun h => hid h.symm
        simp [hx, hid, hne]
    · by_cases hid : id = n
      · simp [hx, hid]
      · simp [hx, hid]

theorem item?_erase (xs : List (Nat × α)) (n id : Nat) :
    item? (xs.filter fun x => x.1 ≠ n) id = if id = n then none else item? xs id := by
  induction xs with
  | nil => simp
  | cons x xs ih =>
    by_cases hx : x.1 = n
    · rw [List.filter_cons_of_neg (by simpa using hx), ih, item?_cons]
      by_cases hid : id = n
      · simp [hid]
      · have hne : ¬ n = id := fun h => hid h.symm
        simp [hx, hid, hne]
    · rw [List.filter_cons_of_pos (by simpa using hx), item?_cons, item?_cons, ih]
      by_cases hid : id = n
      · have hne : ¬ x.1 = id := fun h => hx (h.trans hid)
        simp [hid, hx]
      · simp [hid]

/-- A list in which every number is used once, around one of its entries. -/
theorem split_of_mem {xs : List (Nat × α)} (hn : (xs.map Prod.fst).Nodup) {n : Nat} {a : α}
    (hm : (n, a) ∈ xs) : item? xs n = some a ∧ ∃ l r, xs = l ++ (n, a) :: r ∧
      (∀ b, (xs.map fun x => if x.1 = n then (n, b) else x) = l ++ (n, b) :: r) ∧
      (xs.filter fun x => x.1 ≠ n) = l ++ r := by
  obtain ⟨l, r, rfl⟩ := List.append_of_mem hm
  rw [List.map_append, List.map_cons, List.nodup_append, List.nodup_cons] at hn
  obtain ⟨-, ⟨hr, -⟩, hl⟩ := hn
  have hleft : ∀ x ∈ l, x.1 ≠ n := fun x hx =>
    hl x.1 (List.mem_map_of_mem hx) n (List.mem_cons_self ..)
  have hright : ∀ x ∈ r, x.1 ≠ n := by
    rintro x hx rfl
    exact hr (List.mem_map.2 ⟨x, hx, rfl⟩)
  have hkeep : ∀ b (ys : List (Nat × α)), (∀ x ∈ ys, x.1 ≠ n) →
      (ys.map fun x => if x.1 = n then (n, b) else x) = ys := by
    intro b ys hys
    have hid : ∀ x ∈ ys, (if x.1 = n then (n, b) else x) = id x := fun x hx => if_neg (hys x hx)
    rw [List.map_congr_left hid, List.map_id]
  refine ⟨?_, l, r, rfl, fun b => ?_, ?_⟩
  · have hnone : l.find? (fun x => x.1 = n) = none :=
      List.find?_eq_none.2 fun x hx => by simpa using hleft x hx
    simp [item?, hnone]
  · rw [List.map_append, List.map_cons, hkeep b l hleft, hkeep b r hright, if_pos rfl]
  · rw [List.filter_append, List.filter_cons_of_neg (by simp),
      List.filter_eq_self.2 fun x hx => by simpa using hleft x hx,
      List.filter_eq_self.2 fun x hx => by simpa using hright x hx]

theorem item?_eq_some_iff {xs : List (Nat × α)} (hn : (xs.map Prod.fst).Nodup) {n : Nat} {a : α} :
    item? xs n = some a ↔ (n, a) ∈ xs := by
  constructor
  · intro h
    obtain ⟨x, hx, rfl⟩ := Option.map_eq_some_iff.1 h
    have hid : x.1 = n := by simpa using List.find?_some hx
    rw [← hid]
    exact List.mem_of_find?_eq_some hx
  · exact fun hm => (split_of_mem hn hm).1

/-- The other entries, when one is replaced or removed. -/
theorem perm_of_mem {xs : List (Nat × α)} (hn : (xs.map Prod.fst).Nodup) {n : Nat} {a : α}
    (hm : (n, a) ∈ xs) : ∃ rest, xs.Perm ((n, a) :: rest) ∧
      (∀ b, (xs.map fun x => if x.1 = n then (n, b) else x).Perm ((n, b) :: rest)) ∧
      (xs.filter fun x => x.1 ≠ n).Perm rest := by
  obtain ⟨_, l, r, hxs, hreplace, herase⟩ := split_of_mem hn hm
  refine ⟨l ++ r, ?_, fun b => ?_, ?_⟩
  · rw [hxs]
    exact List.perm_middle
  · rw [hreplace]
    exact List.perm_middle
  · rw [herase]

/-- Each entry has a number of its own, below `bound`. -/
structure Distinct (xs : List (Nat × α)) (bound : Nat) : Prop where
  nodup : (xs.map Prod.fst).Nodup
  below : ∀ x ∈ xs, x.1 < bound

section Distinct

variable {xs : List (Nat × α)} {bound : Nat}

theorem Distinct.concat (h : Distinct xs bound) (a : α) :
    Distinct (xs ++ [(bound, a)]) (bound + 1) := by
  refine ⟨?_, fun x hx => ?_⟩
  · rw [List.map_append, List.nodup_append]
    refine ⟨h.nodup, by simp, fun n hn m hm => ?_⟩
    obtain ⟨x, hx, rfl⟩ := List.mem_map.1 hn
    obtain rfl : m = bound := by simpa using hm
    exact Nat.ne_of_lt (h.below x hx)
  · rcases List.mem_append.1 hx with hx | hx
    · exact Nat.lt_succ_of_lt (h.below x hx)
    · rw [List.mem_singleton.1 hx]
      exact Nat.lt_succ_self _

theorem Distinct.replace (h : Distinct xs bound) (n : Nat) (a : α) :
    Distinct (xs.map fun x => if x.1 = n then (n, a) else x) bound := by
  have hnumber : ∀ x : Nat × α, (if x.1 = n then (n, a) else x).1 = x.1 := by
    intro x
    split
    · rename_i hx
      exact hx.symm
    · rfl
  have hfst : (Prod.fst ∘ fun x : Nat × α => if x.1 = n then (n, a) else x) = Prod.fst :=
    funext hnumber
  refine ⟨?_, fun x hx => ?_⟩
  · rw [List.map_map, hfst]
    exact h.nodup
  · obtain ⟨y, hy, rfl⟩ := List.mem_map.1 hx
    rw [hnumber]
    exact h.below y hy

theorem Distinct.erase (h : Distinct xs bound) (n : Nat) :
    Distinct (xs.filter fun x => x.1 ≠ n) bound :=
  ⟨h.nodup.sublist (List.filter_sublist.map Prod.fst),
    fun x hx => h.below x (List.mem_filter.1 hx).1⟩

end Distinct

/-- What the entries of a list weigh together. -/
def total (weight : α → Nat) : List α → Nat
  | [] => 0
  | x :: xs => weight x + total weight xs

@[simp] theorem total_nil (weight : α → Nat) : total weight [] = 0 := rfl

@[simp] theorem total_cons (weight : α → Nat) (x : α) (xs : List α) :
    total weight (x :: xs) = weight x + total weight xs := rfl

@[simp] theorem total_append (weight : α → Nat) (xs ys : List α) :
    total weight (xs ++ ys) = total weight xs + total weight ys := by
  induction xs with
  | nil => simp
  | cons x xs ih => simp [ih, Nat.add_assoc]

theorem total_perm (weight : α → Nat) {xs ys : List α} (h : xs.Perm ys) :
    total weight xs = total weight ys := by
  induction h with
  | nil => rfl
  | cons x _ ih => simp [ih]
  | swap x y xs =>
    simp only [total_cons]
    omega
  | trans _ _ ih ih' => exact ih.trans ih'

end PromqlServer.Numbered
