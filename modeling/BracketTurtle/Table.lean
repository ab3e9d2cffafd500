/-!
# Tables

A table holds values under keys, in the order in which the keys first appeared. A registry is a
table whose keys are names.
-/

namespace BracketTurtle

abbrev Table (κ α : Type) := List (κ × α)

abbrev Registry (α : Type) := Table String α

namespace Table

variable {κ α : Type} [DecidableEq κ]

/-- The value under a key, if there is one. -/
def get? (key : κ) (t : Table κ α) : Option α := t.lookup key

/-- A present key takes the new value in its old place; a new key goes to the end. -/
def put (key : κ) (value : α) : Table κ α → Table κ α
  | [] => [(key, value)]
  | (k, v) :: rest => if k = key then (key, value) :: rest else (k, v) :: put key value rest

@[simp] theorem get?_put_self (key : κ) (value : α) (t : Table κ α) :
    get? key (put key value t) = some value := by
  induction t with
  | nil => simp [put, get?]
  | cons m rest ih =>
    obtain ⟨k, v⟩ := m
    by_cases h : k = key
    · simp [put, get?, h]
    · have h' : (key == k) = false := beq_false_of_ne (Ne.symm h)
      simpa [put, get?, h, List.lookup_cons, h'] using ih

theorem get?_put_of_ne {key other : κ} (h : other ≠ key) (value : α) (t : Table κ α) :
    get? other (put key value t) = get? other t := by
  induction t with
  | nil => simp [put, get?, List.lookup_cons, beq_false_of_ne h]
  | cons m rest ih =>
    obtain ⟨k, v⟩ := m
    by_cases hk : k = key
    · subst hk
      simp [put, get?, List.lookup_cons, beq_false_of_ne h]
    · by_cases ho : other = k
      · subst ho
        simp [put, get?, hk]
      · simpa [put, get?, hk, List.lookup_cons, beq_false_of_ne ho] using ih

theorem get?_put_eq_some {key other : κ} {value v : α} {t : Table κ α} :
    get? other (put key value t) = some v ↔
      other = key ∧ value = v ∨ other ≠ key ∧ get? other t = some v := by
  by_cases h : other = key
  · simp [h]
  · simp [h, get?_put_of_ne h]

theorem get?_map {β : Type} (f : κ → α → β) (key : κ) (t : Table κ α) :
    get? key (t.map fun m => (m.1, f m.1 m.2)) = (get? key t).map (f key) := by
  induction t with
  | nil => rfl
  | cons m t ih =>
    obtain ⟨k, v⟩ := m
    by_cases h : key = k
    · subst h
      simp [get?]
    · have hne : (key == k) = false := beq_false_of_ne h
      simpa [get?, List.lookup_cons, hne] using ih

theorem get?_keyed {ι : Type} [DecidableEq ι] {name : ι → κ}
    (hname : ∀ i j, name i = name j → i = j) (value : ι → α) (is : List ι) (i : ι) :
    get? (name i) (is.map fun j => (name j, value j)) =
      if i ∈ is then some (value i) else none := by
  induction is with
  | nil => rfl
  | cons j is ih =>
    by_cases h : i = j
    · simp [get?, h]
    · have hne : (name i == name j) = false := beq_false_of_ne fun heq => h (hname i j heq)
      simpa [get?, List.lookup_cons, hne, h] using ih

theorem map_put {β : Type} (f : α → β) (key : κ) (value : α) (t : Table κ α) :
    (put key value t).map (fun m => (m.1, f m.2)) =
      put key (f value) (t.map fun m => (m.1, f m.2)) := by
  induction t with
  | nil => rfl
  | cons m t ih =>
    obtain ⟨k, v⟩ := m
    by_cases h : k = key
    · simp [put, h]
    · simpa [put, h] using ih

theorem mem_of_get? {key : κ} {value : α} {t : Table κ α} (h : get? key t = some value) :
    (key, value) ∈ t := by
  obtain ⟨t₁, t₂, rfl, -⟩ := List.lookup_eq_some_iff.mp h
  simp

theorem forall_mem_put {P : α → Prop} (key : κ) {value : α} (hvalue : P value) {t : Table κ α}
    (h : ∀ m ∈ t, P m.2) : ∀ m ∈ put key value t, P m.2 := by
  induction t with
  | nil => simpa [put] using hvalue
  | cons m t ih =>
    obtain ⟨k, v⟩ := m
    have hv := h (k, v) List.mem_cons_self
    have ht := fun m hm => h m (List.mem_cons_of_mem _ hm)
    rw [put]
    split
    · exact List.forall_mem_cons.mpr ⟨hvalue, ht⟩
    · exact List.forall_mem_cons.mpr ⟨hv, ih ht⟩

theorem put_of_not_mem {key : κ} {t : Table κ α} (h : key ∉ t.map Prod.fst) (value : α) :
    put key value t = t ++ [(key, value)] := by
  induction t with
  | nil => rfl
  | cons m rest ih =>
    obtain ⟨k, v⟩ := m
    simp only [List.map_cons, List.mem_cons, not_or] at h
    rw [put, if_neg (Ne.symm h.1), ih h.2, List.cons_append]

theorem map_fst_put (key : κ) (value : α) (t : Table κ α) :
    (put key value t).map Prod.fst =
      if key ∈ t.map Prod.fst then t.map Prod.fst else t.map Prod.fst ++ [key] := by
  induction t with
  | nil => simp [put]
  | cons m rest ih =>
    obtain ⟨k, v⟩ := m
    by_cases hk : k = key
    · simp [put, hk]
    · have hk' : ¬key = k := Ne.symm hk
      by_cases hm : key ∈ rest.map Prod.fst <;> simp_all [put]

end Table
end BracketTurtle
