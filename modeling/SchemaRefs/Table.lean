/-!
# Ordered tables

A table is a list of keyed values in the order in which their keys were first bound. Binding a
key again replaces the value where it stands, so a key keeps its first position and its last
value. `Table.put` keeps keys distinct (`nodup_keys_put`).
-/

namespace SchemaRefs

namespace Table

variable {α : Type}

/-- The keys of a table, in order. -/
def keys (table : List (String × α)) : List String :=
  table.map Prod.fst

/-- The value bound to `key`, if any. -/
def get? (table : List (String × α)) (key : String) : Option α :=
  table.lookup key

/-- Binds `key` to `value`: in place when the key is known, at the end otherwise. -/
def put : List (String × α) → String → α → List (String × α)
  | [], key, value => [(key, value)]
  | (k, v) :: rest, key, value =>
    if k = key then (k, value) :: rest else (k, v) :: put rest key value

/-- The table that results from binding the pairs of a list one after the other. -/
def ofList (pairs : List (String × α)) : List (String × α) :=
  pairs.foldl (fun table pair => put table pair.1 pair.2) []

@[simp] theorem keys_nil : keys ([] : List (String × α)) = [] := rfl

@[simp] theorem keys_cons (k : String) (v : α) (rest : List (String × α)) :
    keys ((k, v) :: rest) = k :: keys rest := rfl

theorem mem_keys_put (table : List (String × α)) (key : String) (value : α) (k : String) :
    k ∈ keys (put table key value) ↔ k = key ∨ k ∈ keys table := by
  induction table with
  | nil => simp [put, keys]
  | cons pair rest ih =>
    obtain ⟨k', v'⟩ := pair
    by_cases h : k' = key
    · subst h; simp [put]
    · simp [put, h, ih, or_left_comm]

theorem nodup_keys_put {table : List (String × α)} (h : (keys table).Nodup) (key : String)
    (value : α) : (keys (put table key value)).Nodup := by
  induction table with
  | nil => simp [put, keys]
  | cons pair rest ih =>
    obtain ⟨k', v'⟩ := pair
    simp only [keys_cons, List.nodup_cons] at h
    by_cases hk : k' = key
    · subst hk; simpa [put] using h
    · simp only [put, if_neg hk, keys_cons, List.nodup_cons, mem_keys_put, not_or]
      exact ⟨⟨hk, h.1⟩, ih h.2⟩

/-- A new key goes to the end. -/
theorem put_of_not_mem_keys {table : List (String × α)} {key : String} (h : key ∉ keys table)
    (value : α) : put table key value = table ++ [(key, value)] := by
  induction table with
  | nil => rfl
  | cons pair rest ih =>
    obtain ⟨k, v⟩ := pair
    simp only [keys_cons, List.mem_cons, not_or] at h
    rw [put, if_neg (Ne.symm h.1), ih h.2, List.cons_append]

theorem nodup_keys_ofList (pairs : List (String × α)) : (keys (ofList pairs)).Nodup := by
  suffices h : ∀ (table : List (String × α)), (keys table).Nodup →
      (keys (pairs.foldl (fun t p => put t p.1 p.2) table)).Nodup from h [] (by simp)
  induction pairs with
  | nil => exact fun _ h => h
  | cons pair rest ih => exact fun table h => ih _ (nodup_keys_put h _ _)

@[simp] theorem get?_nil (key : String) : get? ([] : List (String × α)) key = none := rfl

theorem get?_cons (k : String) (v : α) (rest : List (String × α)) (key : String) :
    get? ((k, v) :: rest) key = if key = k then some v else get? rest key := by
  unfold get?
  rw [List.lookup_cons]
  by_cases h : key = k
  · subst h; simp
  · rw [if_neg h, beq_false_of_ne h]

/-- What `put` stores is found again, and nothing else changes. -/
theorem get?_put (table : List (String × α)) (key : String) (value : α) (k : String) :
    get? (put table key value) k = if k = key then some value else get? table k := by
  induction table with
  | nil => exact get?_cons key value [] k
  | cons pair rest ih =>
    obtain ⟨k', v'⟩ := pair
    by_cases hk : k' = key
    · subst hk
      rw [put, if_pos rfl, get?_cons, get?_cons]
      split <;> rfl
    · rw [put, if_neg hk, get?_cons, get?_cons, ih]
      by_cases h : k = k'
      · subst h; simp [hk]
      · simp [h]

theorem mem_of_get? {table : List (String × α)} {key : String} {value : α}
    (h : get? table key = some value) : (key, value) ∈ table := by
  induction table with
  | nil => cases h
  | cons pair rest ih =>
    obtain ⟨k, v⟩ := pair
    rw [get?_cons] at h
    split at h
    · next hk =>
      cases h
      subst hk
      exact List.mem_cons_self
    · exact List.mem_cons_of_mem _ (ih h)

end Table

end SchemaRefs
