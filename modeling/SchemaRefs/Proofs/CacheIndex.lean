import Mathlib.Algebra.Ring.Nat
import Mathlib.Data.List.Nodup
import SchemaRefs.Proofs.Execution

/-!
# The index of a cache

A cache lists, for each definition, the nodes that have entries on its behalf. The lists and the
entries are kept in two maps, and operations may fail between two of their changes. This module
shows that the maps never drift apart.

* `Cache.Operation` is what can be done to a cache from outside. A computation whose result is to be
  kept is given by the operations that it performs, whatever comes of them, and by its outcome.
* `Operation.changes` records what an operation changes, and `Cache.Carried` says that the record is
  right.
* `Cache.Indexed` is the agreement of lists and entries. Each change keeps it (`Indexed.stored`,
  `Indexed.clear`, `Indexed.drop`), and so does every sequence of operations.
* `populated` reads the list of a definition off the record: it holds the nodes that got a fact
  since the definition was last dropped, in the order of their first one.
-/

namespace SchemaRefs

open CacheM

namespace Cache

variable {key : FactKey} {past : List Change} {node owner : NodeId}

/-! ## Operations and changes -/

/-- What can be done to a cache. -/
inductive Operation where
  | set (key : FactKey) (owner node : NodeId) (value : key.Value)
  | clear (key : FactKey) (node : NodeId)
  /-- Reads a fact, or else computes and stores it. The computation performs operations, goes on
  when one of them fails, and ends with a value or an error. -/
  | compute (key : FactKey) (owner node : NodeId) (steps : List Operation)
      (outcome : Except ResolveError key.Value)
  | dropAll (owner : NodeId)

mutual

/-- The computation of an operation. -/
def Operation.action : Operation → CacheM Unit
  | .set key owner node value => setFact key owner node value
  | .clear key node => modify (·.clear key node)
  | .compute key owner node steps outcome => do
    let _ ← getOrCompute key owner node (do performAll steps; liftExcept outcome)
  | .dropAll owner => modify fun cache => (cache.dropAll owner).1

/-- Performs operations one after the other, whether they succeed or fail. -/
def performAll : List Operation → CacheM Unit
  | [] => return
  | operation :: rest => do
    let _ ← attempt operation.action
    performAll rest

end

/-- A change of a cache: a fact is stored, a fact is removed, or all entries of a definition are
dropped. -/
inductive Change where
  | stored (key : FactKey) (owner node : NodeId) (value : key.Value)
  | cleared (key : FactKey) (node : NodeId)
  | dropped (owner : NodeId)

/-- The change that storing a fact makes, if it is not refused. -/
def storing (s : Cache) (key : FactKey) (owner node : NodeId) (value : key.Value) : List Change :=
  match s.set key owner node value with
  | .ok _ => [.stored key owner node value]
  | .error _ => []

mutual

/-- The changes that an operation makes, in order. -/
def Operation.changes (s : Cache) : Operation → List Change
  | .set key owner node value => s.storing key owner node value
  | .clear key node => [.cleared key node]
  | .compute key owner node steps outcome =>
    if s.contains key node then []
    else
      let after := (exec (performAll steps) s).2
      changesOf s steps ++
        match outcome with
        | .ok value =>
          if after.get? key node = some value then [] else after.storing key owner node value
        | .error _ => []
  | .dropAll owner => [.dropped owner]

/-- The changes that operations make, in order. -/
def changesOf (s : Cache) : List Operation → List Change
  | [] => []
  | operation :: rest =>
    operation.changes s ++ changesOf (exec operation.action s).2 rest

end

/-- The changes lead from one cache to another. -/
inductive Carried : Cache → List Change → Cache → Prop where
  | nil {s : Cache} : Carried s [] s
  | stored {s t u : Cache} {key : FactKey} {owner node : NodeId} {value : key.Value}
      {rest : List Change} : s.set key owner node value = .ok t → Carried t rest u →
      Carried s (.stored key owner node value :: rest) u
  | cleared {s u : Cache} {key : FactKey} {node : NodeId} {rest : List Change} :
      Carried (s.clear key node) rest u → Carried s (.cleared key node :: rest) u
  | dropped {s u : Cache} {owner : NodeId} {rest : List Change} :
      Carried (s.dropAll owner).1 rest u → Carried s (.dropped owner :: rest) u

variable {s t u : Cache}

theorem Carried.append {changes more : List Change} (h : Carried s changes t)
    (h' : Carried t more u) :
    Carried s (changes ++ more) u := by
  induction h with
  | nil => exact h'
  | stored hset _ ih => exact .stored hset (ih h')
  | cleared _ ih => exact .cleared (ih h')
  | dropped _ ih => exact .dropped (ih h')

theorem carried_storing (s : Cache) (key : FactKey) (owner node : NodeId) (value : key.Value) :
    Carried s (s.storing key owner node value) (exec (setFact key owner node value) s).2 := by
  rw [storing, exec_setFact]
  cases hset : s.set key owner node value with
  | ok t => exact .stored hset .nil
  | error cause => exact .nil

theorem exec_performAll_cons (s : Cache) (operation : Operation) (rest : List Operation) :
    exec (performAll (operation :: rest)) s =
      exec (performAll rest) (exec operation.action s).2 := by
  rw [performAll, exec_bind_ok (exec_attempt _ s)]

theorem exec_performAll (s : Cache) (operations : List Operation) :
    exec (performAll operations) s = (.ok (), (exec (performAll operations) s).2) := by
  induction operations generalizing s with
  | nil => rfl
  | cons operation rest ih =>
    rw [exec_performAll_cons]
    exact ih _

theorem exec_liftExcept {α : Type} (outcome : Except ResolveError α) (s : Cache) :
    exec (liftExcept outcome : CacheM α) s = (outcome, s) := by
  cases outcome <;> rfl

theorem exec_compute_known {steps : List Operation} {outcome : Except ResolveError key.Value}
    {value : key.Value} (h : s.get? key node = some value) :
    (exec (Operation.compute key owner node steps outcome).action s).2 = s := by
  rw [Operation.action, exec_bind, exec_getOrCompute, h]
  rfl

/-- A computation that is run leaves its cache, in which its result may yet have to be stored. -/
theorem exec_compute_new {steps : List Operation} {outcome : Except ResolveError key.Value}
    (h : s.get? key node = none) (ht : exec (performAll steps) s = (.ok (), t)) :
    (exec (Operation.compute key owner node steps outcome).action s).2 =
      match outcome with
      | .ok value =>
        if t.get? key node = some value then t else (exec (setFact key owner node value) t).2
      | .error _ => t := by
  rw [Operation.action, exec_bind, exec_getOrCompute, h]
  dsimp only
  rw [exec_bind_ok ht, exec_liftExcept]
  cases outcome with
  | error e => rfl
  | ok value =>
    dsimp only
    by_cases hknown : t.get? key node = some value
    · rw [if_pos hknown, if_pos hknown]
      rfl
    · rw [if_neg hknown, if_neg hknown, exec_setFact]
      cases t.set key owner node value <;> rfl

mutual

/-- The record of an operation is right. -/
theorem carried_changes (s : Cache) : (operation : Operation) →
    Carried s (operation.changes s) (exec operation.action s).2
  | .set key owner node value => carried_storing s key owner node value
  | .clear key node => .cleared .nil
  | .compute key owner node steps outcome => by
    rw [Operation.changes, contains]
    cases hget : s.get? key node with
    | some value =>
      rw [exec_compute_known hget]
      exact .nil
    | none =>
      rw [exec_compute_new hget (exec_performAll s steps)]
      refine (carried_changesOf s steps).append ?_
      cases outcome with
      | error e => exact .nil
      | ok value =>
        dsimp only
        split
        · exact .nil
        · exact carried_storing _ key owner node value
  | .dropAll owner => .dropped .nil

theorem carried_changesOf (s : Cache) : (operations : List Operation) →
    Carried s (changesOf s operations) (exec (performAll operations) s).2
  | [] => .nil
  | operation :: rest => by
    rw [changesOf, exec_performAll_cons]
    exact (carried_changes s operation).append (carried_changesOf _ rest)

end

/-! ## Lists and entries -/

/-- The lists agree with the entries: a node is listed under the owner of its entry, once. -/
structure Indexed (s : Cache) : Prop where
  listed : ∀ owner node, node ∈ s.ownedNodes owner ↔ s.owner? node = some owner
  nodup : ∀ owner, (s.ownedNodes owner).Nodup

theorem indexed_empty : Indexed Cache.empty :=
  ⟨by simp [owner?], by simp⟩

theorem Indexed.not_mem (h : s.Indexed) (hnone : s.entryAt? node = none) (owner : NodeId) :
    node ∉ s.ownedNodes owner := by
  rw [h.listed, owner?, hnone]
  exact fun hc => by cases hc

theorem stored_of_set {value : key.Value}
    (h : s.set key owner node value = .ok t) : s.Stored key owner node value t := by
  rcases s.set_cases key owner node value with ⟨after, hok, hs, _⟩ | ⟨_, _, _, herror⟩ |
    ⟨_, _, _, _, _, _, herror⟩
  · rw [h] at hok
    cases hok
    exact hs
  · rw [h] at herror
    cases herror
  · rw [h] at herror
    cases herror

theorem Stored.owner?_of_entry {value : key.Value} (h : s.Stored key owner node value t)
    (hentry : s.entryAt? node ≠ none) : s.owner? node = some owner := by
  obtain ⟨entry, he⟩ := Option.ne_none_iff_exists'.mp hentry
  have howner := h.owner_eq
  rw [entryOr, he] at howner
  rw [owner?, he, Option.map_some]
  exact congrArg some howner

theorem Indexed.stored (h : s.Indexed) {value : key.Value}
    (hs : s.Stored key owner node value t) : t.Indexed := by
  refine ⟨fun other id => ?_, fun other => ?_⟩
  · rw [hs.owner?_eq, hs.ownedNodes_eq]
    by_cases hid : id = node
    · subst hid
      rw [if_pos rfl]
      by_cases he : s.entryAt? id = none
      · by_cases ho : other = owner
        · subst ho
          simp [he]
        · simp [ho, h.not_mem he other, Ne.symm ho]
      · rw [if_neg (fun hc => he hc.1), h.listed, hs.owner?_of_entry he]
    · rw [if_neg hid, ← h.listed]
      split
      · simp [hid]
      · rfl
  · rw [hs.ownedNodes_eq]
    split
    · next hc =>
      refine List.nodup_append.mpr ⟨h.nodup other, by simp, fun a ha b hb heq => ?_⟩
      rw [List.mem_singleton.mp hb] at heq
      exact h.not_mem hc.1 other (heq ▸ ha)
    · exact h.nodup other

theorem Indexed.clear (h : s.Indexed) (key : FactKey) (node : NodeId) :
    (s.clear key node).Indexed := by
  refine ⟨fun owner id => ?_, fun owner => ?_⟩
  · rw [ownedNodes_clear, owner?_clear, h.listed]
  · rw [ownedNodes_clear]
    exact h.nodup owner

/-- Dropping a definition removes exactly the entries kept on its behalf. -/
theorem Indexed.entryAt?_drop (h : s.Indexed) (owner node : NodeId) :
    (s.dropAll owner).1.entryAt? node =
      if s.owner? node = some owner then none else s.entryAt? node := by
  rw [entryAt?_dropAll]
  simp only [h.listed]

theorem Indexed.drop (h : s.Indexed) (owner : NodeId) : (s.dropAll owner).1.Indexed := by
  refine ⟨fun other node => ?_, fun other => ?_⟩
  · rw [ownedNodes_dropAll, owner?, h.entryAt?_drop]
    by_cases ho : other = owner
    · subst ho
      by_cases hn : s.owner? node = some other
      · simp [hn]
      · rw [if_pos rfl, if_neg hn]
        exact iff_of_false List.not_mem_nil hn
    · rw [if_neg ho, h.listed]
      by_cases hn : s.owner? node = some owner
      · simp [hn, Ne.symm ho]
      · rw [if_neg hn]
        rfl
  · rw [ownedNodes_dropAll]
    split
    · exact List.nodup_nil
    · exact h.nodup other

/-! ## All lists together -/

/-- The nodes of all lists. -/
def allListed (s : Cache) : List NodeId :=
  s.owned.toList.flatMap Prod.snd

theorem mem_allListed : node ∈ s.allListed ↔ ∃ owner, node ∈ s.ownedNodes owner := by
  simp only [allListed, List.mem_flatMap, Prod.exists,
    Std.TreeMap.mem_toList_iff_getElem?_eq_some, ownedNodes]
  constructor
  · rintro ⟨owner, nodes, hnodes, hmem⟩
    exact ⟨owner, by rwa [hnodes]⟩
  · rintro ⟨owner, hmem⟩
    cases hnodes : s.owned[owner]? with
    | none => simp [hnodes] at hmem
    | some nodes => exact ⟨owner, nodes, hnodes, by simpa [hnodes] using hmem⟩

theorem Indexed.nodup_allListed (h : s.Indexed) : s.allListed.Nodup := by
  have hlist : ∀ list ∈ s.owned.toList, s.ownedNodes list.1 = list.2 := by
    rintro ⟨owner, nodes⟩ hmem
    rw [Std.TreeMap.mem_toList_iff_getElem?_eq_some] at hmem
    simp [ownedNodes, hmem]
  refine List.nodup_flatMap.mpr ⟨fun list hmem => hlist list hmem ▸ h.nodup list.1, ?_⟩
  refine Std.TreeMap.distinct_keys_toList.imp_of_mem fun {a b} ha hb hne node hna hnb => ?_
  -- a node of two lists would have two owners
  rw [← hlist a ha, h.listed] at hna
  rw [← hlist b hb, h.listed, hna] at hnb
  exact hne (Nat.compare_eq_eq.mpr (Option.some.inj hnb))

theorem mem_keys_entries : node ∈ s.entries.keys ↔ ∃ owner, s.owner? node = some owner := by
  rw [Std.TreeMap.mem_keys, Std.TreeMap.mem_iff_isSome_getElem?, ← entryAt?, owner?,
    Option.isSome_iff_exists]
  simp

theorem Indexed.size_eq (h : s.Indexed) :
    s.size = (s.owned.toList.map fun list => list.2.length).sum := by
  have hperm : s.allListed.Perm s.entries.keys := by
    rw [List.perm_ext_iff_of_nodup h.nodup_allListed Std.TreeMap.nodup_keys]
    intro node
    simp only [mem_allListed, mem_keys_entries, h.listed]
  rw [size, ← Std.TreeMap.length_keys, ← hperm.length_eq, allListed, List.length_flatMap]

/-- The entries kept on behalf of a definition, by node. -/
def entriesOf (s : Cache) (owner : NodeId) : List (NodeId × Entry) :=
  s.entries.toList.filter fun pair => pair.2.owner == owner

theorem Indexed.length_entriesOf (h : s.Indexed) (owner : NodeId) :
    (s.entriesOf owner).length = (s.ownedNodes owner).length := by
  have hnodup : ((s.entriesOf owner).map Prod.fst).Nodup := by
    refine Std.TreeMap.nodup_keys.sublist (?_ : List.Sublist _ s.entries.keys)
    rw [← Std.TreeMap.map_fst_toList_eq_keys]
    exact List.filter_sublist.map _
  have hperm : ((s.entriesOf owner).map Prod.fst).Perm (s.ownedNodes owner) := by
    rw [List.perm_ext_iff_of_nodup hnodup (h.nodup owner)]
    intro node
    simp [entriesOf, h.listed, owner?, entryAt?, Std.TreeMap.mem_toList_iff_getElem?_eq_some]
  rw [← hperm.length_eq, List.length_map]

theorem Indexed.removed (h : s.Indexed) (owner : NodeId) :
    (s.dropAll owner).2 = (s.entriesOf owner).length := by
  rw [h.length_entriesOf]
  refine removed_dropAll (h.nodup owner) fun node hmem => ?_
  rw [h.listed, owner?, Option.map_eq_some_iff] at hmem
  obtain ⟨entry, he, _⟩ := hmem
  rw [he]
  rfl

/-! ## The order of the lists -/

/-- The node that a change stores a fact about, on behalf of a definition. -/
def Change.nodeFor? (owner : NodeId) : Change → Option NodeId
  | .stored _ other node _ => if other = owner then some node else none
  | _ => none

/-- The change drops the entries of a definition. -/
def Change.drops (owner : NodeId) : Change → Bool
  | .dropped other => other == owner
  | _ => false

/-- The nodes that got a fact on behalf of a definition since it was last dropped, in the order of
their first one. -/
def populated (owner : NodeId) (changes : List Change) : List NodeId :=
  ((changes.reverse.takeWhile fun change => !change.drops owner).reverse.filterMap
    (·.nodeFor? owner)).eraseDups

theorem populated_dropped {change : Change} (changes : List Change)
    (h : change.drops owner = true) : populated owner (changes ++ [change]) = [] := by
  simp [populated, h]

theorem populated_other {change : Change} (changes : List Change)
    (hd : change.drops owner = false) (hn : change.nodeFor? owner = none) :
    populated owner (changes ++ [change]) = populated owner changes := by
  simp [populated, hd, hn]

theorem eraseDups_snoc (nodes : List NodeId) (node : NodeId) :
    (nodes ++ [node]).eraseDups =
      if node ∈ nodes then nodes.eraseDups else nodes.eraseDups ++ [node] := by
  rw [List.eraseDups_append, List.removeAll]
  by_cases h : node ∈ nodes <;> simp [h, List.eraseDups_cons]

theorem populated_stored (changes : List Change) (key : FactKey) (value : key.Value) :
    populated owner (changes ++ [.stored key owner node value]) =
      if node ∈ populated owner changes then populated owner changes
      else populated owner changes ++ [node] := by
  have hnode : Change.nodeFor? owner (.stored key owner node value) = some node := if_pos rfl
  simp only [populated, List.mem_eraseDups]
  rw [← eraseDups_snoc]
  simp [Change.drops, hnode]

/-- The lists agree with the entries and with what happened so far. -/
structure Tracks (past : List Change) (s : Cache) : Prop extends Indexed s where
  order : ∀ owner, s.ownedNodes owner = populated owner past

theorem tracks_empty : Tracks [] Cache.empty :=
  ⟨indexed_empty, by simp [populated]⟩

theorem Tracks.stored (h : Tracks past s)
    {value : key.Value} (hs : s.Stored key owner node value t) :
    Tracks (past ++ [.stored key owner node value]) t := by
  refine ⟨h.toIndexed.stored hs, fun other => ?_⟩
  rw [hs.ownedNodes_eq]
  by_cases ho : other = owner
  · subst ho
    rw [populated_stored, ← h.order]
    -- the node is listed already exactly if it has an entry
    by_cases hnew : s.entryAt? node = none
    · rw [if_pos ⟨hnew, rfl⟩, if_neg (h.not_mem hnew other)]
    · rw [if_neg (fun hc => hnew hc.1),
        if_pos ((h.listed other node).mpr (hs.owner?_of_entry hnew))]
  · rw [if_neg (fun hc => ho hc.2), populated_other past rfl
      (by simp [Change.nodeFor?, Ne.symm ho]), h.order]

theorem Tracks.clear (h : Tracks past s) (key : FactKey) (node : NodeId) :
    Tracks (past ++ [.cleared key node]) (s.clear key node) := by
  refine ⟨h.toIndexed.clear key node, fun owner => ?_⟩
  rw [ownedNodes_clear, populated_other past rfl rfl, h.order]

theorem Tracks.drop (h : Tracks past s) (owner : NodeId) :
    Tracks (past ++ [.dropped owner]) (s.dropAll owner).1 := by
  refine ⟨h.toIndexed.drop owner, fun other => ?_⟩
  rw [ownedNodes_dropAll]
  by_cases ho : other = owner
  · rw [if_pos ho, populated_dropped past (by simp [Change.drops, ho])]
  · rw [if_neg ho, populated_other past (by simp [Change.drops, Ne.symm ho]) rfl, h.order]

/-- What every change keeps, all of them keep. -/
theorem Tracks.carried {changes : List Change} (h : Tracks past s) (hc : Carried s changes t) :
    Tracks (past ++ changes) t := by
  induction hc generalizing past with
  | nil => rwa [List.append_nil]
  | stored hset _ ih =>
    rw [List.append_cons]
    exact ih (h.stored (stored_of_set hset))
  | cleared _ ih =>
    rw [List.append_cons]
    exact ih (h.clear _ _)
  | dropped _ ih =>
    rw [List.append_cons]
    exact ih (h.drop _)

/-! ## Every sequence of operations -/

/-- After any operations on a new cache, whether they succeeded or failed, a node is listed under a
definition exactly if it has an entry on its behalf, and it is listed once over all lists. Each list
is in the order in which its nodes got their first fact since the definition was last dropped, and
the lists hold as many nodes as there are entries. Dropping a definition therefore removes exactly
its entries, counts them, and changes nothing else. -/
theorem index_agrees_with_entries (operations : List Operation) :
    let changes := changesOf Cache.empty operations
    let s := (exec (performAll operations) Cache.empty).2
    Carried Cache.empty changes s ∧
      (∀ owner node, node ∈ s.ownedNodes owner ↔ s.owner? node = some owner) ∧
      s.allListed.Nodup ∧
      (∀ owner, s.ownedNodes owner = populated owner changes) ∧
      s.size = (s.owned.toList.map fun list => list.2.length).sum ∧
      ∀ owner,
        (s.dropAll owner).2 = (s.entriesOf owner).length ∧
        (∀ node, (s.dropAll owner).1.entryAt? node =
          if s.owner? node = some owner then none else s.entryAt? node) ∧
        (∀ other, (s.dropAll owner).1.ownedNodes other =
          if other = owner then [] else s.ownedNodes other) ∧
        (s.dropAll owner).1.stats =
          { s.stats with droppedEntries := s.stats.droppedEntries + (s.dropAll owner).2 } ∧
        (s.dropAll owner).1.resolving = s.resolving := by
  intro changes s
  have hcarried : Carried Cache.empty changes s := carried_changesOf Cache.empty operations
  have htracks : Tracks ([] ++ changes) s := tracks_empty.carried hcarried
  have hindexed : s.Indexed := htracks.toIndexed
  refine ⟨hcarried, hindexed.listed, hindexed.nodup_allListed, htracks.order, hindexed.size_eq,
    fun owner => ?_⟩
  exact ⟨hindexed.removed owner, hindexed.entryAt?_drop owner, ownedNodes_dropAll owner, rfl, rfl⟩

end Cache

end SchemaRefs
