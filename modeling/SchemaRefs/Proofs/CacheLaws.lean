import SchemaRefs.Cache.Basic

/-!
# Laws of the cache

What each operation on a cache does to every fact, to the owner of every entry and to the list of
nodes of every definition. `Cache.set_cases` says when a fact is stored and when it is refused; all
later arguments about the cache go through these laws.
-/

namespace SchemaRefs

namespace Cache

variable {cache : Cache} {key : FactKey} {node owner : NodeId}

theorem entryAt?_putEntry (node : NodeId) (entry : Entry) (other : NodeId) :
    (cache.putEntry node entry).entryAt? other =
      if other = node then some entry else cache.entryAt? other := by
  simp only [putEntry, entryAt?, Std.TreeMap.getElem?_insert, Nat.compare_eq_eq]
  by_cases h : node = other
  · rw [if_pos h, if_pos h.symm]
  · rw [if_neg h, if_neg (fun h' => h h'.symm)]

theorem entryAt?_addEntry (owner node other : NodeId) :
    (cache.addEntry owner node).entryAt? other =
      if other = node then some { owner } else cache.entryAt? other := by
  simp only [addEntry, entryAt?, Std.TreeMap.getElem?_insert, Nat.compare_eq_eq]
  by_cases h : node = other
  · rw [if_pos h, if_pos h.symm]
  · rw [if_neg h, if_neg (fun h' => h h'.symm)]

theorem ownedNodes_addEntry (owner node other : NodeId) :
    (cache.addEntry owner node).ownedNodes other =
      if other = owner then cache.ownedNodes owner ++ [node] else cache.ownedNodes other := by
  simp only [addEntry, ownedNodes, Std.TreeMap.getElem?_insert, Nat.compare_eq_eq]
  by_cases h : owner = other
  · rw [if_pos h, if_pos h.symm]
    rfl
  · rw [if_neg h, if_neg (fun h' => h h'.symm)]

@[simp] theorem ownedNodes_putEntry (node : NodeId) (entry : Entry) (owner : NodeId) :
    (cache.putEntry node entry).ownedNodes owner = cache.ownedNodes owner := rfl

/-! ## Reading -/

theorem get?_eq_none_of_entryAt? (h : cache.entryAt? node = none) :
    cache.get? key node = none := by
  simp [get?, h]

theorem get?_of_entryAt? {entry : Entry}
    (h : cache.entryAt? node = some entry) : cache.get? key node = entry.get? key := by
  simp [get?, h]

theorem exists_entryAt?_of_get? {value : key.Value} (h : cache.get? key node = some value) :
    ∃ entry, cache.entryAt? node = some entry ∧ entry.get? key = some value :=
  Option.bind_eq_some_iff.mp h

@[simp] theorem get?_count (f : Stats → Stats) (key : FactKey) (node : NodeId) :
    (cache.count f).get? key node = cache.get? key node := rfl

@[simp] theorem entryAt?_empty (node : NodeId) : Cache.empty.entryAt? node = none := by
  simp [Cache.empty, entryAt?]

@[simp] theorem get?_empty (key : FactKey) (node : NodeId) : Cache.empty.get? key node = none :=
  get?_eq_none_of_entryAt? (entryAt?_empty node)

@[simp] theorem ownedNodes_empty (owner : NodeId) : Cache.empty.ownedNodes owner = [] := by
  simp [Cache.empty, ownedNodes]

@[simp] theorem get?_enter (holder : NodeId) (key : FactKey) (node : NodeId) :
    (cache.enter holder).get? key node = cache.get? key node := rfl

/-! ## Storing -/

theorem get?_entry_empty (owner : NodeId) (key : FactKey) :
    ({ owner } : Entry).get? key = none := by
  cases key <;> rfl

/-- The entry that a node has, or the one that it gets. -/
def entryOr (cache : Cache) (owner node : NodeId) : Entry :=
  (cache.entryAt? node).getD { owner }

theorem get?_entryOr (owner : NodeId) (key : FactKey) (node : NodeId) :
    (cache.entryOr owner node).get? key = cache.get? key node := by
  unfold entryOr get?
  cases h : cache.entryAt? node with
  | none => simpa using get?_entry_empty owner key
  | some entry => simp

/-- The cache after a fact was stored. -/
structure Stored (cache : Cache) (key : FactKey) (owner node : NodeId) (value : key.Value)
    (after : Cache) : Prop where
  /-- The entry of the node, and all others. -/
  entryAt?_eq : ∀ other, after.entryAt? other =
    if other = node then some ((cache.entryOr owner node).set key (some value))
    else cache.entryAt? other
  owner_eq : (cache.entryOr owner node).owner = owner
  /-- A new entry comes last among those of its owner. -/
  ownedNodes_eq : ∀ other, after.ownedNodes other =
    if cache.entryAt? node = none ∧ other = owner then cache.ownedNodes other ++ [node]
    else cache.ownedNodes other
  resolving_eq : after.resolving = cache.resolving

/-- The first fact of a node. -/
theorem stored_addEntry (key : FactKey) (owner : NodeId) (value : key.Value)
    (h : cache.entryAt? node = none) : cache.Stored key owner node value
      ((cache.addEntry owner node).putEntry node (({ owner } : Entry).set key (some value))) := by
  refine ⟨fun other => ?_, by simp [entryOr, h], fun other => ?_, rfl⟩
  · rw [entryAt?_putEntry, entryAt?_addEntry]
    by_cases ho : other = node
    · rw [if_pos ho, if_pos ho, entryOr, h]
      rfl
    · rw [if_neg ho, if_neg ho, if_neg ho]
  · rw [ownedNodes_putEntry, ownedNodes_addEntry]
    by_cases ho : other = owner
    · rw [if_pos ho, if_pos ⟨h, ho⟩, ho]
    · rw [if_neg ho, if_neg (fun h' => ho h'.2)]

theorem stored_putEntry {entry : Entry} (key : FactKey) (value : key.Value)
    (h : cache.entryAt? node = some entry) : cache.Stored key entry.owner node value
      (cache.putEntry node (entry.set key (some value))) := by
  refine ⟨fun other => ?_, by simp [entryOr, h], fun other => ?_, rfl⟩
  · rw [entryAt?_putEntry, entryOr, h]
    rfl
  · rw [ownedNodes_putEntry, if_neg]
    rintro ⟨h', _⟩
    rw [h] at h'
    cases h'

/-- A fact is stored, unless the node belongs to another definition or has a fact that may not be
replaced. -/
theorem set_cases (key : FactKey) (owner node : NodeId) (value : key.Value) :
    (∃ after, cache.set key owner node value = .ok after ∧ cache.Stored key owner node value after ∧
      ∀ old, cache.get? key node = some old → key.mayReplace old value = true) ∨
    (∃ entry, cache.entryAt? node = some entry ∧ entry.owner ≠ owner ∧
      cache.set key owner node value = .error (.foreignEntry node entry.owner owner)) ∨
    (∃ entry old, cache.entryAt? node = some entry ∧ entry.owner = owner ∧
      cache.get? key node = some old ∧ key.mayReplace old value = false ∧
      cache.set key owner node value =
        .error (.factChange key.name node (key.valueText old) (key.valueText value))) := by
  unfold Cache.set
  split
  · next h =>
    refine .inl ⟨_, rfl, stored_addEntry key owner value h, fun old hold => ?_⟩
    rw [get?_eq_none_of_entryAt? h] at hold
    cases hold
  · next entry h =>
    by_cases ho : entry.owner = owner
    · have hput := stored_putEntry key value h
      rw [ho] at hput
      rw [if_neg (not_not_intro ho), get?_of_entryAt? h]
      split
      · next old hold =>
        by_cases hr : key.mayReplace old value = true
        · rw [if_pos hr]
          refine .inl ⟨_, rfl, hput, fun old' hold' => ?_⟩
          rw [hold] at hold'
          cases hold'
          exact hr
        · rw [if_neg hr]
          exact .inr (.inr ⟨entry, old, h, ho, hold, by simpa using hr, rfl⟩)
      · next hold =>
        refine .inl ⟨_, rfl, hput, fun old' hold' => ?_⟩
        rw [hold] at hold'
        cases hold'
    · rw [if_pos ho]
      exact .inr (.inl ⟨entry, h, ho, rfl⟩)

namespace Stored

variable {key : FactKey} {owner node : NodeId} {value : key.Value} {after : Cache}

theorem get?_self (h : cache.Stored key owner node value after) :
    after.get? key node = some value := by
  rw [get?_of_entryAt? ((h.entryAt?_eq node).trans (if_pos rfl)), Entry.get?_set_self]

theorem get?_of_ne (h : cache.Stored key owner node value after) {other : FactKey} {id : NodeId}
    (hne : id ≠ node ∨ other ≠ key) : after.get? other id = cache.get? other id := by
  by_cases hid : id = node
  · subst hid
    have hkey : other ≠ key := hne.resolve_left (not_not_intro rfl)
    rw [get?_of_entryAt? ((h.entryAt?_eq id).trans (if_pos rfl)), Entry.get?_set_of_ne _ hkey,
      get?_entryOr]
  · rw [get?, get?, h.entryAt?_eq id, if_neg hid]

theorem owner?_eq (h : cache.Stored key owner node value after) (id : NodeId) :
    after.owner? id = if id = node then some owner else cache.owner? id := by
  rw [Cache.owner?, h.entryAt?_eq id]
  split
  · rw [Option.map_some, Entry.owner_set, h.owner_eq]
  · rfl

end Stored

theorem Stored.leave {value : key.Value} {after : Cache}
    (h : cache.Stored key owner node value after) (holder : NodeId) :
    (cache.leave holder).Stored key owner node value (after.leave holder) :=
  ⟨h.entryAt?_eq, h.owner_eq, h.ownedNodes_eq, congrArg (·.erase holder) h.resolving_eq⟩

theorem Stored.get?_of_get? {value : key.Value} {after : Cache}
    (h : cache.Stored key owner node value after)
    (hsame : ∀ old, cache.get? key node = some old → old = value) {other : FactKey} {id : NodeId}
    {known : other.Value} (hknown : cache.get? other id = some known) :
    after.get? other id = some known := by
  by_cases hid : id = node
  · by_cases hkey : other = key
    · subst hid hkey
      rw [h.get?_self, hsame known hknown]
    · rw [h.get?_of_ne (.inr hkey), hknown]
  · rw [h.get?_of_ne (.inl hid), hknown]

/-! ## Removing -/

theorem entryAt?_clear (key : FactKey) (node other : NodeId) :
    (cache.clear key node).entryAt? other =
      if other = node then (cache.entryAt? node).map (·.set key none)
      else cache.entryAt? other := by
  unfold clear
  split
  · next h =>
    split
    · next ho =>
      rw [ho, h]
      rfl
    · rfl
  · next entry h =>
    rw [entryAt?_putEntry, h]
    rfl

theorem get?_clear_self (key : FactKey) (node : NodeId) :
    (cache.clear key node).get? key node = none := by
  rw [get?, entryAt?_clear, if_pos rfl]
  cases cache.entryAt? node <;> simp

theorem get?_clear_of_ne {other : FactKey} {id : NodeId} (hne : id ≠ node ∨ other ≠ key) :
    (cache.clear key node).get? other id = cache.get? other id := by
  rw [get?, get?, entryAt?_clear]
  by_cases hid : id = node
  · subst hid
    have hkey : other ≠ key := hne.resolve_left (not_not_intro rfl)
    rw [if_pos rfl]
    cases cache.entryAt? id with
    | none => rfl
    | some entry => simp [Entry.get?_set_of_ne _ hkey]
  · rw [if_neg hid]

theorem owner?_clear (key : FactKey) (node id : NodeId) :
    (cache.clear key node).owner? id = cache.owner? id := by
  rw [owner?, owner?, entryAt?_clear]
  split
  · next h =>
    rw [h]
    cases cache.entryAt? node <;> simp
  · rfl

theorem ownedNodes_clear (key : FactKey) (node owner : NodeId) :
    (cache.clear key node).ownedNodes owner = cache.ownedNodes owner := by
  unfold clear
  split <;> rfl

theorem resolving_clear (key : FactKey) (node : NodeId) :
    (cache.clear key node).resolving = cache.resolving := by
  unfold clear
  split <;> rfl

theorem getElem?_foldl_erase (nodes : List NodeId) (node : NodeId) :
    ∀ entries : Std.TreeMap NodeId Entry,
      (nodes.foldl (fun entries node => entries.erase node) entries)[node]? =
        if node ∈ nodes then none else entries[node]? := by
  induction nodes with
  | nil => simp
  | cons first rest ih =>
    intro entries
    rw [List.foldl_cons, ih, Std.TreeMap.getElem?_erase]
    simp only [Nat.compare_eq_eq, List.mem_cons]
    by_cases hr : node ∈ rest
    · rw [if_pos hr, if_pos (.inr hr)]
    · by_cases hf : first = node
      · rw [if_neg hr, if_pos hf, if_pos (.inl hf.symm)]
      · rw [if_neg hr, if_neg hf, if_neg]
        rintro (h | h)
        · exact hf h.symm
        · exact hr h

theorem entryAt?_dropAll (owner node : NodeId) :
    (cache.dropAll owner).1.entryAt? node =
      if node ∈ cache.ownedNodes owner then none else cache.entryAt? node :=
  getElem?_foldl_erase _ _ _

theorem ownedNodes_dropAll (owner other : NodeId) :
    (cache.dropAll owner).1.ownedNodes other =
      if other = owner then [] else cache.ownedNodes other := by
  simp only [dropAll, ownedNodes, Std.TreeMap.getElem?_erase, Nat.compare_eq_eq]
  by_cases h : owner = other
  · rw [if_pos h, if_pos h.symm]
    rfl
  · rw [if_neg h, if_neg (fun h' => h h'.symm)]

theorem size_foldl_erase {nodes : List NodeId} (hd : nodes.Nodup) :
    ∀ entries : Std.TreeMap NodeId Entry, (∀ node ∈ nodes, entries.contains node = true) →
      (nodes.foldl (fun entries node => entries.erase node) entries).size + nodes.length =
        entries.size := by
  induction nodes with
  | nil => exact fun _ _ => rfl
  | cons first rest ih =>
    intro entries hall
    obtain ⟨hne, hrest⟩ := List.nodup_cons.mp hd
    have hfirst := hall first List.mem_cons_self
    have hpos : entries.size ≠ 0 := by
      intro hz
      have := Std.TreeMap.isEmpty_eq_false_of_contains hfirst
      rw [Std.TreeMap.isEmpty_eq_size_eq_zero, hz] at this
      cases this
    have hsize : (entries.erase first).size = entries.size - 1 := by
      rw [Std.TreeMap.size_erase, if_pos hfirst]
    have hin : ∀ node ∈ rest, (entries.erase first).contains node = true := by
      intro node hn
      rw [Std.TreeMap.contains_erase, hall node (List.mem_cons_of_mem _ hn),
        Bool.and_true, bne_iff_ne, Ne, Nat.compare_eq_eq]
      rintro rfl
      exact hne hn
    have := ih hrest (entries.erase first) hin
    rw [List.foldl_cons, List.length_cons]
    omega

theorem removed_dropAll (hd : (cache.ownedNodes owner).Nodup)
    (hall : ∀ node ∈ cache.ownedNodes owner, (cache.entryAt? node).isSome) :
    (cache.dropAll owner).2 = (cache.ownedNodes owner).length := by
  have hin : ∀ node ∈ cache.ownedNodes owner, cache.entries.contains node = true := by
    intro node hn
    rw [Std.TreeMap.contains_eq_isSome_getElem?]
    exact hall node hn
  have := size_foldl_erase hd cache.entries hin
  simp only [dropAll]
  omega

end Cache

end SchemaRefs
