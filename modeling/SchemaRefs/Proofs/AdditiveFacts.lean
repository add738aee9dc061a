import SchemaRefs.Proofs.CacheIndex

/-!
# Facts are additive

What a cache knows about a node stays known. A fact is never replaced by another value; only the
mark of a chain that is being walked becomes the end of the chain, and then stays
(`FactKey.Advances`). This holds at any two moments of any operations, also between the steps of a
computation, as long as nothing is cleared and the definition that owns the entry is not dropped
(`Operation.isAdditive`).

* `mayReplace_iff`: storing a fact over another one is admitted exactly if the old one can become
  the new one;
* `Carried.advances`: what a change does to a fact, all changes together do;
* `facts_advance_and_writes_are_atomic`: facts advance, and a refused or failed step changes nothing
  by itself.
-/

namespace SchemaRefs

open CacheM

/-! ## What can become of a fact -/

namespace FactKey

/-- What can become of a fact: it stays as it is, or a mark becomes an effective type. -/
inductive Advances : (key : FactKey) → key.Value → key.Value → Prop where
  | same {key : FactKey} (value : key.Value) : Advances key value value
  | done (type : NodeId) : Advances .effectiveType .inProgress (.done type)

theorem Advances.trans {key : FactKey} {a b c : key.Value} (h : key.Advances a b)
    (h' : key.Advances b c) :
    key.Advances a c := by
  cases h with
  | same => exact h'
  | done type =>
    cases h' with
    | same => exact .done type

theorem mayReplace_iff {key : FactKey} {old new : key.Value} :
    key.mayReplace old new = true ↔ key.Advances old new := by
  constructor
  · intro h
    cases key with
    | effectiveType =>
      rcases old with _ | type
      · cases new with
        | inProgress => exact .same _
        | done type => exact .done type
      · have heq : TypeState.done type = new := by simpa [mayReplace] using h
        exact heq ▸ .same _
    | _ =>
      have heq : old = new := by simpa [mayReplace] using h
      exact heq ▸ .same _
  · intro h
    cases h with
    | same => cases key <;> simp [mayReplace]
    | done type => rfl

end FactKey

namespace Cache

variable {s t u : Cache} {key : FactKey} {node other owner : NodeId}

/-! ## Additive operations -/

mutual

/-- The operation takes no fact of a definition away: it clears nothing and does not drop the
definition, and neither does any step of its computation. -/
def Operation.isAdditive (owner : NodeId) : Operation → Bool
  | .set _ _ _ _ => true
  | .clear _ _ => false
  | .compute _ _ _ steps _ => areAdditive owner steps
  | .dropAll other => other != owner

/-- None of the operations takes a fact of a definition away. -/
def areAdditive (owner : NodeId) : List Operation → Bool
  | [] => true
  | operation :: rest => operation.isAdditive owner && areAdditive owner rest

end

/-- The change takes no fact of a definition away. -/
def Change.isAdditive (owner : NodeId) : Change → Bool
  | .stored _ _ _ _ => true
  | .cleared _ _ => false
  | .dropped other => other != owner

theorem isAdditive_storing {value : key.Value} {change : Change}
    (h : change ∈ s.storing key other node value) : change.isAdditive owner = true := by
  unfold storing at h
  split at h
  · rw [List.mem_singleton.mp h]
    rfl
  · cases h

mutual

theorem isAdditive_changes {owner : NodeId} (s : Cache) : (operation : Operation) →
    operation.isAdditive owner = true →
    ∀ change ∈ operation.changes s, change.isAdditive owner = true
  | .set _ _ _ _, _, _, hmem => isAdditive_storing hmem
  | .clear _ _, h, _, _ => by cases h
  | .compute key other node steps outcome, h, change, hmem => by
    rw [Operation.isAdditive] at h
    rw [Operation.changes] at hmem
    split at hmem
    · cases hmem
    · rcases List.mem_append.mp hmem with hsteps | hlast
      · exact isAdditive_changesOf s steps h change hsteps
      · cases outcome with
        | error e => cases hlast
        | ok value =>
          dsimp only at hlast
          split at hlast
          · cases hlast
          · exact isAdditive_storing hlast
  | .dropAll other, h, change, hmem => by
    rw [Operation.changes, List.mem_singleton] at hmem
    rw [hmem]
    exact h

theorem isAdditive_changesOf {owner : NodeId} (s : Cache) : (operations : List Operation) →
    areAdditive owner operations = true →
    ∀ change ∈ changesOf s operations, change.isAdditive owner = true
  | [], _, _, hmem => by cases hmem
  | operation :: rest, h, change, hmem => by
    rw [areAdditive, Bool.and_eq_true] at h
    rw [changesOf] at hmem
    rcases List.mem_append.mp hmem with hfirst | hrest
    · exact isAdditive_changes s operation h.1 change hfirst
    · exact isAdditive_changesOf _ rest h.2 change hrest

end

/-! ## Facts along changes -/

theorem indexed_carried {changes : List Change} (h : s.Indexed) (hc : Carried s changes t) :
    t.Indexed := by
  induction hc with
  | nil => exact h
  | stored hset _ ih => exact ih (h.stored (stored_of_set hset))
  | cleared _ ih => exact ih (h.clear _ _)
  | dropped _ ih => exact ih (h.drop _)

theorem Stored.eq_of_owner? {value : key.Value} (hs : s.Stored key owner node value t)
    (howner : s.owner? node = some other) : other = owner := by
  have hentry : s.entryAt? node ≠ none := by
    intro hnone
    rw [owner?, hnone] at howner
    cases howner
  rw [hs.owner?_of_entry hentry] at howner
  exact (Option.some.inj howner).symm

theorem Stored.owner?_of_owner? {id : NodeId} {value : key.Value}
    (hs : s.Stored key other node value t) (howner : s.owner? id = some owner) :
    t.owner? id = some owner := by
  rw [hs.owner?_eq]
  split
  · next heq =>
    subst heq
    rw [hs.eq_of_owner? howner]
  · exact howner

/-- Storing a fact lets every fact advance. -/
theorem advances_of_set {other : FactKey} {id : NodeId} {value : key.Value} {known : other.Value}
    (hset : s.set key owner node value = .ok t) (hknown : s.get? other id = some known) :
    ∃ later, t.get? other id = some later ∧ other.Advances known later := by
  rcases s.set_cases key owner node value with ⟨after, hok, hs, hreplace⟩ | ⟨_, _, _, herror⟩ |
    ⟨_, _, _, _, _, _, herror⟩
  · rw [hset] at hok
    cases hok
    by_cases hsame : id = node ∧ other = key
    · obtain ⟨rfl, rfl⟩ := hsame
      exact ⟨value, hs.get?_self, FactKey.mayReplace_iff.mp (hreplace known hknown)⟩
    · have hne : id ≠ node ∨ other ≠ key := by
        by_cases hid : id = node
        · exact .inr fun hkey => hsame ⟨hid, hkey⟩
        · exact .inl hid
      exact ⟨known, (hs.get?_of_ne hne).trans hknown, .same known⟩
  · rw [hset] at herror
    cases herror
  · rw [hset] at herror
    cases herror

/-- Dropping another definition changes nothing about an entry. -/
theorem Indexed.entryAt?_drop_of_ne (h : s.Indexed) (hne : other ≠ owner)
    (howner : s.owner? node = some owner) :
    (s.dropAll other).1.entryAt? node = s.entryAt? node := by
  rw [h.entryAt?_drop, if_neg]
  rw [howner]
  exact fun heq => hne (Option.some.inj heq).symm

/-- What a change does to a fact, all changes together do: it advances. -/
theorem Carried.advances {changes : List Change} (hc : Carried s changes t) (h : s.Indexed)
    (howner : s.owner? node = some owner)
    (hadd : ∀ change ∈ changes, change.isAdditive owner = true) {value : key.Value}
    (hvalue : s.get? key node = some value) :
    ∃ later, t.get? key node = some later ∧ key.Advances value later := by
  induction hc generalizing value with
  | nil => exact ⟨value, hvalue, .same value⟩
  | stored hset _ ih =>
    have hs := stored_of_set hset
    obtain ⟨mid, hmid, hfirst⟩ := advances_of_set hset hvalue
    obtain ⟨later, hlater, hrest⟩ := ih (h.stored hs) (hs.owner?_of_owner? howner)
      (fun change hmem => hadd change (List.mem_cons_of_mem _ hmem)) hmid
    exact ⟨later, hlater, hfirst.trans hrest⟩
  | cleared => cases hadd _ List.mem_cons_self
  | @dropped s _ other _ _ ih =>
    have hother : other ≠ owner := by simpa [Change.isAdditive] using hadd _ List.mem_cons_self
    have hentry := h.entryAt?_drop_of_ne hother howner
    refine ih (h.drop other) ?_ (fun change hmem => hadd change (List.mem_cons_of_mem _ hmem)) ?_
    · rw [owner?, hentry]
      exact howner
    · rw [get?, hentry]
      exact hvalue

/-! ## Single writes -/

/-- A fact is stored exactly if the entry of the node has no other owner and its old value can
become the new one. Otherwise nothing changes. -/
theorem exec_setFact_cases (s : Cache) (key : FactKey) (owner node : NodeId) (value : key.Value) :
    (∃ t, exec (setFact key owner node value) s = (.ok (), t) ∧ t.get? key node = some value ∧
      (∀ other, s.owner? node = some other → other = owner) ∧
      ∀ old, s.get? key node = some old → key.Advances old value) ∨
    ∃ e, exec (setFact key owner node value) s = (.error e, s) ∧
      ((∃ other, s.owner? node = some other ∧ other ≠ owner) ∨
        ∃ old, s.get? key node = some old ∧ ¬ key.Advances old value) := by
  rw [exec_setFact]
  rcases s.set_cases key owner node value with ⟨t, hok, hs, hreplace⟩
    | ⟨entry, hentry, hne, herror⟩ | ⟨_, old, _, _, hold, hno, herror⟩
  · rw [hok]
    exact .inl ⟨t, rfl, hs.get?_self, fun other hother => hs.eq_of_owner? hother, fun old hold =>
      FactKey.mayReplace_iff.mp (hreplace old hold)⟩
  · rw [herror]
    exact .inr ⟨_, rfl, .inl ⟨entry.owner, by rw [owner?, hentry]; rfl, hne⟩⟩
  · rw [herror]
    refine .inr ⟨_, rfl, .inr ⟨old, hold, fun hadvances => ?_⟩⟩
    rw [FactKey.mayReplace_iff.mpr hadvances] at hno
    cases hno

/-- A computed fact that is returned is stored. -/
theorem get?_of_exec_getOrCompute {compute : CacheM key.Value}
    {value : key.Value} (h : exec (getOrCompute key owner node compute) s = (.ok value, t)) :
    t.get? key node = some value := by
  rw [exec_getOrCompute] at h
  split at h
  · next hknown =>
    cases h
    exact hknown
  · split at h
    · cases h
    · split at h
      · next hstored =>
        cases h
        exact hstored
      · split at h
        · next hset =>
          cases h
          exact (stored_of_set hset).get?_self
        · cases h

/-! ## Every sequence of operations -/

/-- At any two moments of the operations on a cache, a fact of the first moment is one of the
second, as it was or, if it was a mark, as the end of its chain, unless a fact of its owner may be
taken away in between. A fact is stored exactly if its node has no other owner and the old value can
become the new one; a refused one leaves the cache as it was. A computation whose result is to be
kept is not run if there is a fact already, its result is stored when it is returned, and when it
fails nothing happens beyond what it did itself. -/
theorem facts_advance_and_writes_are_atomic (past operations : List Operation) :
    (let s := (exec (performAll past) Cache.empty).2
    ∀ before between after t u, changesOf s operations = before ++ between ++ after →
      Carried s before t → Carried t between u →
      ∀ owner node, t.owner? node = some owner → areAdditive owner operations = true →
        ∀ (key : FactKey) (value : key.Value), t.get? key node = some value →
          ∃ later, u.get? key node = some later ∧ key.Advances value later) ∧
    ∀ (s : Cache) (key : FactKey) (owner node : NodeId),
      (∀ value : key.Value,
        (∃ t, exec (setFact key owner node value) s = (.ok (), t) ∧ t.get? key node = some value ∧
          (∀ other, s.owner? node = some other → other = owner) ∧
          ∀ old, s.get? key node = some old → key.Advances old value) ∨
        ∃ e, exec (setFact key owner node value) s = (.error e, s) ∧
          ((∃ other, s.owner? node = some other ∧ other ≠ owner) ∨
            ∃ old, s.get? key node = some old ∧ ¬ key.Advances old value)) ∧
      ∀ compute : CacheM key.Value,
        (∀ value t, exec (getOrCompute key owner node compute) s = (.ok value, t) →
          t.get? key node = some value) ∧
        (∀ value, s.get? key node = some value →
          exec (getOrCompute key owner node compute) s = (.ok value, s)) ∧
        ∀ e t, s.get? key node = none → exec compute s = (.error e, t) →
          exec (getOrCompute key owner node compute) s = (.error e, t) := by
  refine ⟨?_, fun s key owner node => ⟨exec_setFact_cases s key owner node, fun compute =>
    ⟨fun value t h => get?_of_exec_getOrCompute h, fun value hknown => ?_,
      fun e t hnone hfails => ?_⟩⟩⟩
  · intro s before between after t u hchanges hbefore hbetween owner node howner hadd key
      value hvalue
    have hstart : s.Indexed := indexed_carried indexed_empty (carried_changesOf Cache.empty past)
    refine hbetween.advances (indexed_carried hstart hbefore) howner (fun change hmem => ?_) hvalue
    refine isAdditive_changesOf s operations hadd change ?_
    rw [hchanges]
    exact List.mem_append_left _ (List.mem_append_right _ hmem)
  · rw [exec_getOrCompute, hknown]
  · rw [exec_getOrCompute, hnone, hfails]

/-- A node is marked on behalf of a definition, and another definition has an entry. -/
def markedPast : List Operation :=
  [.set .effectiveType 1 5 .inProgress, .set .parent 2 9 2]

/-- A computation about another node stores the end of the chain and then fails, a second end is
refused, and the other definition is dropped. -/
def walkedSteps : List Operation :=
  [.compute .effectiveType 1 6 [.set .effectiveType 1 5 (.done 7)]
    (.error (.assertion (.noScope 0))), .set .effectiveType 1 5 (.done 8), .dropAll 2]

/-- The cache after the operations of `markedPast`. -/
def markedCache : Cache :=
  (exec (performAll markedPast) Cache.empty).2

/-- The mark has become the end of the chain, and the other definition has no entry any more. -/
theorem markedCache_advances :
    areAdditive 1 walkedSteps = true ∧ markedCache.get? .effectiveType 5 = some .inProgress ∧
      (∃ later, (exec (performAll walkedSteps) markedCache).2.get? .effectiveType 5 = some later ∧
        FactKey.Advances .effectiveType .inProgress later) ∧
      (exec (performAll walkedSteps) markedCache).2.get? .effectiveType 5 = some (.done 7) ∧
      (exec (performAll walkedSteps) markedCache).2.entryAt? 9 = none := by
  have hmark : markedCache.get? .effectiveType 5 = some .inProgress := by decide +kernel
  have howner : markedCache.owner? 5 = some 1 := by decide +kernel
  refine ⟨rfl, hmark, ?_, by decide +kernel, by decide +kernel⟩
  exact (facts_advance_and_writes_are_atomic markedPast walkedSteps).1 []
    (changesOf markedCache walkedSteps) [] markedCache _ (by rw [List.append_nil]; rfl) .nil
    (carried_changesOf markedCache walkedSteps) 1 5 howner rfl .effectiveType .inProgress hmark

end Cache

end SchemaRefs
