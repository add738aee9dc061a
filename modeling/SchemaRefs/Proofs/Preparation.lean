import SchemaRefs.Proofs.CacheIndex
import SchemaRefs.Proofs.Topologies
import SchemaRefs.Session.Basic

/-!
# Preparing definitions

A cache is orderly when every entry is kept on behalf of the definition that owns its node, and when
the facts that belong to a topology are there exactly for the definitions that were prepared. What
preparing a definition stores does not depend on the cache: it is what a new session would store
(`Model.freshly`).

The main statement is `prepare_cases`: preparing a definition fails as building its topology fails,
or leaves an orderly cache in which nothing else has changed.
-/

namespace SchemaRefs

open CacheM

/-- The facts that are stored together with a topology. -/
def FactKey.isStructural : FactKey → Bool
  | .parent | .query | .element | .column => true
  | _ => false

namespace Model

variable (m : Model) {key : FactKey} {definition node owner : NodeId}

/-! ## Owners -/

/-- Every entry is kept on behalf of the definition that owns its node. -/
structure Owned (s : Cache) : Prop where
  owner : ∀ node o, s.owner? node = some o → m.doc.owner? node = some o
  listed : ∀ o node, node ∈ s.ownedNodes o ↔ s.owner? node = some o
  nodup : ∀ o, (s.ownedNodes o).Nodup

variable {m} {s t : Cache}

theorem owned_empty : Owned m Cache.empty :=
  ⟨by simp [Cache.owner?], by simp [Cache.owner?], by simp⟩

theorem Owned.count (h : Owned m s) (f : Stats → Stats) : Owned m (s.count f) :=
  ⟨h.owner, h.listed, h.nodup⟩

theorem Owned.enter (h : Owned m s) (holder : NodeId) : Owned m (s.enter holder) :=
  ⟨h.owner, h.listed, h.nodup⟩

theorem Owned.leave (h : Owned m s) (holder : NodeId) : Owned m (s.leave holder) :=
  ⟨h.owner, h.listed, h.nodup⟩

theorem Owned.indexed (h : Owned m s) : s.Indexed :=
  ⟨h.listed, h.nodup⟩

theorem Owned.stored (h : Owned m s) {value : key.Value}
    (hs : s.Stored key owner node value t) (ho : m.doc.owner? node = some owner) : Owned m t := by
  have hindexed := h.indexed.stored hs
  refine ⟨fun id o hid => ?_, hindexed.listed, hindexed.nodup⟩
  rw [hs.owner?_eq] at hid
  split at hid
  · next heq => rw [heq, ho, ← hid]
  · exact h.owner id o hid

theorem Owned.clear (h : Owned m s) (key : FactKey) (node : NodeId) :
    Owned m (s.clear key node) := by
  have hindexed := h.indexed.clear key node
  refine ⟨fun id o hid => h.owner id o ?_, hindexed.listed, hindexed.nodup⟩
  rwa [Cache.owner?_clear] at hid

/-- On behalf of its owner, a node gets every fact that it has not got with another value. -/
theorem Owned.setFact (h : Owned m s) {value : key.Value} (ho : m.doc.owner? node = some owner)
    (hr : ∀ old, s.get? key node = some old → key.mayReplace old value = true) :
    ∃ t, exec (setFact key owner node value) s = (.ok (), t) ∧ s.Stored key owner node value t := by
  rw [exec_setFact]
  rcases s.set_cases key owner node value with ⟨t, hok, hst, _⟩ | ⟨entry, he, hne, _⟩ |
    ⟨entry, old, _, _, hold, hno, _⟩
  · exact ⟨t, by rw [hok], hst⟩
  · have := h.owner node entry.owner (by rw [Cache.owner?, he, Option.map_some])
    rw [ho] at this
    exact absurd (Option.some.inj this).symm hne
  · rw [hr old hold] at hno
    cases hno

theorem Owned.set_new (h : Owned m s) (value : key.Value)
    (ho : m.doc.owner? node = some owner) (hn : s.get? key node = none) :
    ∃ t, s.set key owner node value = .ok t ∧ s.Stored key owner node value t := by
  obtain ⟨t, hex, hst⟩ := h.setFact ho fun old hold => by
    rw [hn] at hold
    cases hold
  rw [exec_setFact] at hex
  cases hset : s.set key owner node value with
  | error a => rw [hset] at hex; cases hex
  | ok u =>
    rw [hset] at hex
    cases hex
    exact ⟨t, rfl, hst⟩

/-- What has been computed for a node is stored, unless the computation has done so. -/
theorem Owned.getOrCompute_new {value : key.Value} {x : CacheM key.Value} (h : Owned m t)
    (ho : m.doc.owner? node = some owner) (hs : s.get? key node = none)
    (ht : t.get? key node = none) (hx : exec x s = (.ok value, t)) :
    ∃ u, exec (getOrCompute key owner node x) s = (.ok value, u) ∧
    t.Stored key owner node value u := by
  obtain ⟨u, hset, hst⟩ := h.set_new value ho ht
  refine ⟨u, ?_, hst⟩
  rw [exec_getOrCompute, hs, hx]
  dsimp only
  rw [if_neg (by rw [ht]; exact fun hc => by cases hc), hset]

/-! ## Storing a topology -/

variable (m) in
/-- Only structural facts about nodes of the definition have changed. -/
structure Aside (definition : NodeId) (s t : Cache) : Prop where
  same : ∀ (key : FactKey) (node : NodeId),
    (key.isStructural = true → m.doc.owner? node ≠ some definition) →
    t.get? key node = s.get? key node
  resolving : t.resolving = s.resolving

theorem Aside.refl (definition : NodeId) (s : Cache) : Aside m definition s s :=
  ⟨fun _ _ _ => rfl, rfl⟩

theorem Aside.trans (a b c : Cache) (h : Aside m definition a b)
    (h' : Aside m definition b c) : Aside m definition a c :=
  ⟨fun key node hk => (h'.same key node hk).trans (h.same key node hk),
    h'.resolving.trans h.resolving⟩

theorem Aside.stored {value : key.Value}
    (hs : s.Stored key definition node value t) (hk : key.isStructural = true)
    (ho : m.doc.owner? node = some definition) : Aside m definition s t := by
  refine ⟨fun other id hne => hs.get?_of_ne ?_, hs.resolving_eq⟩
  by_cases hid : id = node
  · refine .inr fun heq => ?_
    subst hid heq
    exact hne hk ho
  · exact .inl hid

variable (m) in
/-- The parents and members stored for a definition are those of its links. -/
structure FromLinks (definition : NodeId) (links : List TopologyLink) (s : Cache) : Prop where
  owned : Owned m s
  parent : ∀ member parent, m.doc.owner? member = some definition →
    s.get? .parent member = some parent → .parent member parent ∈ links
  element : ∀ column element, m.doc.owner? column = some definition →
    s.get? .element column = some element → .column column element ∈ links

section Storing

variable {definition : NodeId} {topology : Topology} {links : List TopologyLink}

theorem FromLinks.stored (h : FromLinks m definition links s) {value : key.Value}
    (hs : s.Stored key definition node value t) (ho : m.doc.owner? node = some definition)
    (hp : ∀ parent, t.get? .parent node = some parent → s.get? .parent node = some parent ∨
      .parent node parent ∈ links)
    (he : ∀ element, t.get? .element node = some element → s.get? .element node = some element ∨
      .column node element ∈ links) :
    FromLinks m definition links t := by
  refine ⟨h.owned.stored hs ho, fun member parent hown hget => ?_,
    fun column element hown hget => ?_⟩
  · by_cases hn : member = node
    · subst hn
      exact (hp parent hget).elim (h.parent member parent hown) id
    · rw [hs.get?_of_ne (.inl hn)] at hget
      exact h.parent member parent hown hget
  · by_cases hn : column = node
    · subst hn
      exact (he element hget).elim (h.element column element hown) id
    · rw [hs.get?_of_ne (.inl hn)] at hget
      exact h.element column element hown hget

theorem keeps_setFirst {value : key.Value}
    (hk : key = .query ∨ key = .column) (ho : m.doc.owner? node = some definition) :
    Keeps (FromLinks m definition links) (Aside m definition) (fun _ => False) (fun _ => True)
      (setFirst key definition node value) := by
  intro s hs
  rw [setFirst, exec_bind_ok (exec_get s)]
  split
  · exact ⟨hs, .refl _ _, trivial⟩
  · next hno =>
    have hnone : ∀ old, s.get? key node = some old → key.mayReplace old value = true := by
      intro old hold
      simp [Cache.contains, hold] at hno
    obtain ⟨t, hex, hst⟩ := hs.owned.setFact ho hnone
    rw [hex]
    refine ⟨hs.stored hst ho (fun parent hp => .inl ?_) (fun element he => .inl ?_),
      .stored hst ?_ ho,
      trivial⟩
    · rcases hk with rfl | rfl <;> exact (hst.get?_of_ne (.inr (by decide))).symm.trans hp
    · rcases hk with rfl | rfl <;> exact (hst.get?_of_ne (.inr (by decide))).symm.trans he
    · rcases hk with rfl | rfl <;> rfl

theorem owner?_of_within (hd : m.doc.isDefinition definition = true)
    (hw : m.doc.Within definition node) : m.doc.owner? node = some definition :=
  Document.owner?_eq_some_iff.mpr ⟨hd, hw⟩

theorem keeps_storeLink (hd : m.doc.isDefinition definition = true)
    (hb : m.doc.Built definition topology links) {link : TopologyLink} (hl : link ∈ links) :
    Keeps (FromLinks m definition links) (Aside m definition) (fun _ => False) (fun _ => True)
      (storeLink definition link) := by
  cases link with
  | parent member parent =>
    intro s hs
    obtain ⟨h₁, h₂, _⟩ := hb.parent_within hl
    have ho := owner?_of_within hd (h₁.trans h₂)
    have hsame : ∀ old, s.get? .parent member = some old →
        FactKey.mayReplace .parent old parent = true := by
      intro old hold
      have : old = parent := hb.parent_unique (hs.parent member old ho hold) hl
      simp [FactKey.mayReplace, this]
    obtain ⟨t, hex, hst⟩ := hs.owned.setFact ho hsame
    rw [storeLink, hex]
    refine ⟨hs.stored hst ho (fun p hp => .inr ?_) (fun e he => .inl ?_),
      .stored hst rfl ho, trivial⟩
    · rw [hst.get?_self] at hp
      cases hp
      exact hl
    · exact (hst.get?_of_ne (.inr (by decide))).symm.trans he
  | column column element =>
    obtain ⟨hc, he⟩ := hb.column_within hl
    have ho := owner?_of_within hd hc
    have hset : Keeps (FromLinks m definition links) (Aside m definition) (fun _ => False)
        (fun _ => True) (setFact .element definition column element) := by
      intro s hs
      have hsame : ∀ old, s.get? .element column = some old →
          FactKey.mayReplace .element old element = true := by
        intro old hold
        have : old = element := hb.functional column old element (hs.element column old ho hold) hl
        simp [FactKey.mayReplace, this]
      obtain ⟨t, hex, hst⟩ := hs.owned.setFact ho hsame
      rw [hex]
      refine ⟨hs.stored hst ho (fun p hp => .inl ?_) (fun e he => .inr ?_),
        .stored hst rfl ho, trivial⟩
      · exact (hst.get?_of_ne (.inr (by decide))).symm.trans hp
      · rw [hst.get?_self] at he
        cases he
        exact hl
    exact Keeps.bind Aside.trans hset fun _ _ => keeps_setFirst (.inr rfl) (owner?_of_within hd he)

theorem within_of_mem_scopeNodes (hb : m.doc.Built definition topology links) {scope : QueryScope}
    {index : Nat} (hs : topology.queries[index]? = some scope)
    (hn : node ∈ m.scopeNodes scope) : m.doc.Within definition node := by
  have hm := hb.mem_of_scope hs
  simp only [scopeNodes, List.cons_append, List.nil_append, List.mem_cons, List.mem_flatMap,
    Option.mem_toList] at hn
  rcases hn with rfl | rfl | ⟨set, hset, rfl | hbody⟩
  · exact (hb.within_of_mem hm.1).1
  · exact (hb.within_of_mem hm.2).1
  · exact (hb.within_of_mem ((hb.complete index scope hs).sets _ hset).1).1
  · exact (hb.within_of_mem (((hb.complete index scope hs).sets _ hset).2 node hbody)).1

theorem getElem?_of_mem_zipIdx {scope : QueryScope} {index : Nat}
    (h : (scope, index) ∈ topology.queries.zipIdx) : topology.queries[index]? = some scope := by
  simpa [List.mk_mem_zipIdx_iff_getElem?] using h

variable (m) in
/-- The part of a preparation that stores the structural facts. -/
def storeStructure (definition : NodeId) (topology : Topology) (links : List TopologyLink) :
    CacheM Unit := do
  topology.queries.zipIdx.forM fun (scope, index) =>
    (m.scopeNodes scope).forM fun node => setFirst .query definition node index
  links.forM (storeLink definition)

theorem storeTopology_eq : m.storeTopology definition topology links =
    (m.storeStructure definition topology links >>= fun _ =>
      setFact .topology definition definition topology) := by
  simp only [storeTopology, storeStructure, bind_assoc]

theorem keeps_storeStructure (hd : m.doc.isDefinition definition = true)
    (hb : m.doc.Built definition topology links) :
    Keeps (FromLinks m definition links) (Aside m definition) (fun _ => False) (fun _ => True)
      (m.storeStructure definition topology links) := by
  refine Keeps.bind Aside.trans (Keeps.forM (Aside.refl _) Aside.trans _ ?_) fun _ _ =>
    Keeps.forM (Aside.refl _) Aside.trans _ fun link hl => keeps_storeLink hd hb hl
  rintro ⟨scope, index⟩ hs
  refine Keeps.forM (Aside.refl _) Aside.trans _ fun node hn => keeps_setFirst (.inl rfl) ?_
  exact owner?_of_within hd (within_of_mem_scopeNodes hb (getElem?_of_mem_zipIdx hs) hn)

/-! ## What is stored does not depend on the cache -/

variable (m) in
/-- The caches know the same structural facts about the nodes of a definition. -/
structure InStep (definition : NodeId) (s t : Cache) : Prop where
  left : Owned m s
  right : Owned m t
  same : ∀ key node, key.isStructural = true → m.doc.owner? node = some definition →
    s.get? key node = t.get? key node

theorem InStep.stored {value : key.Value} {s' t' : Cache}
    (h : InStep m definition s t) (ho : m.doc.owner? node = some definition)
    (hs : s.Stored key definition node value s') (ht : t.Stored key definition node value t') :
    InStep m definition s' t' := by
  refine ⟨h.left.stored hs ho, h.right.stored ht ho, fun other id hk hid => ?_⟩
  by_cases hc : id = node ∧ other = key
  · obtain ⟨rfl, rfl⟩ := hc
    rw [hs.get?_self, ht.get?_self]
  · have hne : id ≠ node ∨ other ≠ key := by
      by_cases hn : id = node
      · exact .inr fun heq => hc ⟨hn, heq⟩
      · exact .inl hn
    rw [hs.get?_of_ne hne, ht.get?_of_ne hne, h.same other id hk hid]

theorem alike_setFact {value : key.Value}
    (hk : key.isStructural = true) (ho : m.doc.owner? node = some definition) :
    Alike (InStep m definition) (setFact key definition node value)
      (setFact key definition node value) := by
  intro s t h
  have hforeign : ∀ {u : Cache} {entry : Entry}, Owned m u → u.entryAt? node = some entry →
      entry.owner = definition := by
    intro u entry hu he
    have := hu.owner node entry.owner (by rw [Cache.owner?, he, Option.map_some])
    rw [ho] at this
    exact (Option.some.inj this).symm
  have hsame := h.same key node hk ho
  rw [exec_setFact, exec_setFact]
  rcases s.set_cases key definition node value with ⟨s', hs, hss, hrs⟩ | ⟨_, he, hne, _⟩ |
    ⟨_, old, _, _, hold, hno, hs⟩
  · rcases t.set_cases key definition node value with ⟨t', ht, hst, _⟩ | ⟨_, he, hne, _⟩ |
      ⟨_, old, _, _, hold, hno, _⟩
    · rw [hs, ht]
      exact ⟨rfl, h.stored ho hss hst⟩
    · exact absurd (hforeign h.right he) hne
    · rw [hrs old (hsame.trans hold)] at hno
      cases hno
  · exact absurd (hforeign h.left he) hne
  · rcases t.set_cases key definition node value with ⟨t', _, _, hrt⟩ | ⟨_, he, hne, _⟩ |
      ⟨_, old', _, _, hold', _, ht⟩
    · rw [hrt old (hsame.symm.trans hold)] at hno
      cases hno
    · exact absurd (hforeign h.right he) hne
    · rw [hs, ht]
      rw [hsame, hold'] at hold
      cases hold
      exact ⟨rfl, h⟩

theorem alike_setFirst {value : key.Value}
    (hk : key.isStructural = true) (ho : m.doc.owner? node = some definition) :
    Alike (InStep m definition) (setFirst key definition node value)
      (setFirst key definition node value) := by
  intro s t h
  rw [setFirst, exec_bind_ok (exec_get s), exec_bind_ok (exec_get t), Cache.contains,
    Cache.contains, h.same key node hk ho]
  split
  · exact ⟨rfl, h⟩
  · exact alike_setFact hk ho s t h

theorem alike_storeStructure (hd : m.doc.isDefinition definition = true)
    (hb : m.doc.Built definition topology links) :
    Alike (InStep m definition) (m.storeStructure definition topology links)
      (m.storeStructure definition topology links) := by
  refine Alike.bind (Alike.forM _ ?_) fun _ => Alike.forM _ fun link hl => ?_
  · rintro ⟨scope, index⟩ hs
    refine Alike.forM _ fun node hn => alike_setFirst rfl ?_
    exact owner?_of_within hd (within_of_mem_scopeNodes hb (getElem?_of_mem_zipIdx hs) hn)
  · cases link with
    | parent member parent =>
      obtain ⟨h₁, h₂, _⟩ := hb.parent_within hl
      exact alike_setFact rfl (owner?_of_within hd (h₁.trans h₂))
    | column column element =>
      obtain ⟨hc, he⟩ := hb.column_within hl
      exact Alike.bind (alike_setFact rfl (owner?_of_within hd hc)) fun _ =>
        alike_setFirst rfl (owner?_of_within hd he)

end Storing

/-! ## Orderly caches -/

variable (m) in
/-- The cache of a new session that has prepared a definition. -/
def freshly (definition : NodeId) : Cache :=
  (exec (m.prepare definition) Cache.empty).2

variable (m) in
/-- Entries are kept on behalf of their owners, and structural facts are there for the definitions
that were prepared. -/
structure Orderly (s : Cache) : Prop where
  owned : Owned m s
  topology : ∀ d t, s.get? .topology d = some t → m.doc.isDefinition d = true ∧
    ∃ links, m.doc.buildTopology m.options d = .ok (t, links)
  structural : ∀ d key node, key.isStructural = true → m.doc.owner? node = some d →
    s.get? key node = if (s.get? .topology d).isSome then (m.freshly d).get? key node else none

theorem orderly_empty : Orderly m Cache.empty :=
  ⟨owned_empty, by simp, by simp⟩

theorem Orderly.count (h : Orderly m s) (f : Stats → Stats) : Orderly m (s.count f) :=
  ⟨h.owned.count f, h.topology, h.structural⟩

theorem Orderly.enter (h : Orderly m s) (holder : NodeId) : Orderly m (s.enter holder) :=
  ⟨h.owned.enter holder, h.topology, h.structural⟩

theorem Orderly.leave (h : Orderly m s) (holder : NodeId) : Orderly m (s.leave holder) :=
  ⟨h.owned.leave holder, h.topology, h.structural⟩

theorem Orderly.of_same (h : Orderly m s) (ho : Owned m t)
    (hsame : ∀ (key : FactKey) (node : NodeId), key.isStructural = true ∨ key = .topology →
      t.get? key node = s.get? key node) : Orderly m t := by
  refine ⟨ho, fun d tp hd => ?_, fun d key node hk hn => ?_⟩
  · rw [hsame .topology d (.inr rfl)] at hd
    exact h.topology d tp hd
  · rw [hsame key node (.inl hk), hsame .topology d (.inr rfl)]
    exact h.structural d key node hk hn

theorem Orderly.stored (h : Orderly m s) {value : key.Value}
    (hs : s.Stored key owner node value t) (ho : m.doc.owner? node = some owner)
    (hk : key.isStructural = false) (hk' : key ≠ .topology) : Orderly m t := by
  refine h.of_same (h.owned.stored hs ho) fun other id hother => hs.get?_of_ne (.inr fun heq => ?_)
  subst heq
  rcases hother with h' | h'
  · rw [h'] at hk
    cases hk
  · exact hk' h'

theorem Orderly.clear (h : Orderly m s) (node : NodeId) :
    Orderly m (s.clear .effectiveType node) := by
  refine h.of_same (h.owned.clear _ _) fun key id hk => Cache.get?_clear_of_ne (.inr fun heq => ?_)
  subst heq
  rcases hk with hk | hk <;> cases hk

/-- Every fact that one cache knows is known to the other one. -/
def Remembers (s t : Cache) : Prop :=
  ∀ (key : FactKey) (node : NodeId) (value : key.Value),
    s.get? key node = some value → t.get? key node = some value

theorem Remembers.refl (s : Cache) : Remembers s s :=
  fun _ _ _ h => h

theorem Remembers.trans {u : Cache} (h : Remembers s t) (h' : Remembers t u) : Remembers s u :=
  fun key node value hv => h' key node value (h key node value hv)

theorem Remembers.prepared (h : Remembers s t) (definition : NodeId)
    (hd : (s.get? .topology definition).isSome = true) :
    (t.get? .topology definition).isSome = true := by
  obtain ⟨topology, ht⟩ := Option.isSome_iff_exists.mp hd
  rw [h .topology definition topology ht]
  rfl

theorem Remembers.stored {value : key.Value} (h : s.Stored key owner node value t)
    (hsame : ∀ old, s.get? key node = some old → old = value) : Remembers s t :=
  fun _ _ _ hv => h.get?_of_get? hsame hv

theorem Aside.remembers (h : Aside m definition s t)
    (hnone : ∀ key node, key.isStructural = true → m.doc.owner? node = some definition →
      s.get? key node = none) : Remembers s t := by
  intro key node value hv
  rw [h.same key node fun hk ho => ?_, hv]
  rw [hnone key node hk ho] at hv
  cases hv

/-- Nothing but structural facts and topologies has changed, and all facts stay. -/
structure Steady (s t : Cache) : Prop where
  same : ∀ (key : FactKey) (node : NodeId), key.isStructural = false → key ≠ .topology →
    t.get? key node = s.get? key node
  remembers : Remembers s t
  resolving : t.resolving = s.resolving

theorem Steady.refl (s : Cache) : Steady s s :=
  ⟨fun _ _ _ _ => rfl, .refl s, rfl⟩

/-- The counter of built topologies goes up. -/
def countBuild (stats : Stats) : Stats :=
  { stats with topologyBuilds := stats.topologyBuilds + 1 }

section Preparing

variable {definition : NodeId} {topology : Topology} {links : List TopologyLink}

theorem exec_prepare_undefined (hd : m.doc.isDefinition definition = false) (s : Cache) :
    exec (m.prepare definition) s = (.error (.assertion (.notDefinition definition)), s) := by
  rw [prepare, if_neg (by rw [hd]; exact Bool.false_ne_true)]
  rfl

theorem exec_prepare_stored (hd : m.doc.isDefinition definition = true)
    (h : s.get? .topology definition = some topology) :
    exec (m.prepare definition) s = (.ok topology, s) := by
  rw [prepare, if_pos hd, exec_bind_ok (exec_fact? _ _ s), h]
  rfl

theorem exec_prepare_error (hd : m.doc.isDefinition definition = true)
    (h : s.get? .topology definition = none) {e : ModelError}
    (hb : m.doc.buildTopology m.options definition = .error e) :
    exec (m.prepare definition) s = (.error (.model (m.buildError definition e)), s) := by
  rw [prepare, if_pos hd, exec_bind_ok (exec_fact? _ _ s), h]
  dsimp only
  rw [hb]
  rfl

/-- The first preparation stores the structural facts, then the topology. -/
theorem exec_prepare_built (hd : m.doc.isDefinition definition = true)
    (h : s.get? .topology definition = none)
    (hb : m.doc.buildTopology m.options definition = .ok (topology, links))
    (hs : FromLinks m definition links s) :
    ∃ u v, exec (m.storeStructure definition topology links) (s.count countBuild) = (.ok (), u) ∧
      FromLinks m definition links u ∧ Aside m definition s u ∧
      u.Stored .topology definition definition topology v ∧
      exec (m.prepare definition) s = (.ok topology, v) := by
  have hs' : FromLinks m definition links (s.count countBuild) :=
    ⟨hs.owned.count _, hs.parent, hs.element⟩
  obtain ⟨hfrom, haside, hend⟩ := keeps_storeStructure hd (Document.built_buildTopology hb) _ hs'
  rcases hu : exec (m.storeStructure definition topology links) (s.count countBuild) with ⟨_ | _, u⟩
  · rw [hu] at hend
    exact hend.elim
  · rw [hu] at hfrom haside
    have hnone : u.get? .topology definition = none :=
      (haside.same .topology definition (fun hk => by cases hk)).trans h
    have hreplace : ∀ old, u.get? .topology definition = some old →
        FactKey.mayReplace .topology old topology = true := by
      intro old hold
      rw [hnone] at hold
      cases hold
    obtain ⟨v, hv, hst⟩ := hfrom.owned.setFact (Document.owner?_of_isDefinition hd) hreplace
    have hstore : exec (m.storeTopology definition topology links) (s.count countBuild) =
        (.ok (), v) := by
      rw [storeTopology_eq, exec_bind_ok hu]
      exact hv
    refine ⟨u, v, rfl, hfrom, ⟨haside.same, haside.resolving⟩, hst, ?_⟩
    rw [prepare, if_pos hd, exec_bind_ok (exec_fact? _ _ s), h]
    dsimp only
    rw [hb]
    dsimp only
    rw [exec_bind_ok (exec_count _ s)]
    exact exec_bind_ok hstore _

theorem fromLinks_of_orderly (h : Orderly m s) (hn : s.get? .topology definition = none) :
    FromLinks m definition links s := by
  refine ⟨h.owned, fun member parent ho hget => ?_, fun column element ho hget => ?_⟩
  · rw [h.structural definition .parent member rfl ho, hn] at hget
    cases hget
  · rw [h.structural definition .element column rfl ho, hn] at hget
    cases hget

section Storing

variable (h : Orderly m s) (hget : s.get? .topology definition = none)
  (hb : m.doc.buildTopology m.options definition = .ok (topology, links)) {u v : Cache}
  (hst : u.Stored .topology definition definition topology v)
include h hget hst

include hb in
/-- What the first preparation stores is what it stores in a new session. -/
theorem get?_eq_freshly (hd : m.doc.isDefinition definition = true)
    (hu : exec (m.storeStructure definition topology links) (s.count countBuild) = (.ok (), u))
    (hk : key.isStructural = true) (ho : m.doc.owner? node = some definition) :
    v.get? key node = (m.freshly definition).get? key node := by
  obtain ⟨u₀, v₀, hu₀, _, _, hst₀, hex₀⟩ :=
    exec_prepare_built hd (Cache.get?_empty .topology definition) hb
      (fromLinks_of_orderly orderly_empty (Cache.get?_empty .topology definition))
  have hstep : InStep m definition (s.count countBuild) (Cache.empty.count countBuild) := by
    refine ⟨h.owned.count _, owned_empty.count _, fun key node hk ho => ?_⟩
    rw [Cache.get?_count, Cache.get?_count, h.structural definition key node hk ho, hget]
    simp
  have hsame := (alike_storeStructure hd (Document.built_buildTopology hb) _ _ hstep).2
  rw [hu, hu₀] at hsame
  have hfresh : m.freshly definition = v₀ := by rw [freshly, hex₀]
  have hne : key ≠ .topology := by
    rintro rfl
    cases hk
  rw [hfresh, hst.get?_of_ne (.inr hne), hst₀.get?_of_ne (.inr hne)]
  exact hsame.same key node hk ho

include hb in
theorem Orderly.prepared (hd : m.doc.isDefinition definition = true)
    (hu : exec (m.storeStructure definition topology links) (s.count countBuild) = (.ok (), u))
    (howned : Owned m u) (haside : Aside m definition s u) : Orderly m v := by
  have htop : ∀ d, d ≠ definition → v.get? .topology d = s.get? .topology d := by
    intro d hdd
    rw [hst.get?_of_ne (.inl hdd)]
    exact haside.same .topology d fun hk => by cases hk
  refine ⟨howned.stored hst (Document.owner?_of_isDefinition hd), fun d tp hdt => ?_,
    fun d key node hk ho => ?_⟩
  · by_cases hdd : d = definition
    · subst hdd
      rw [hst.get?_self] at hdt
      cases hdt
      exact ⟨hd, links, hb⟩
    · rw [htop d hdd] at hdt
      exact h.topology d tp hdt
  · by_cases hdd : d = definition
    · subst hdd
      rw [hst.get?_self]
      exact get?_eq_freshly h hget hb hst hd hu hk ho
    · have hne : key ≠ .topology := by
        rintro rfl
        cases hk
      rw [htop d hdd, hst.get?_of_ne (.inr hne), ← h.structural d key node hk ho]
      refine haside.same key node fun _ heq => hdd ?_
      rw [ho] at heq
      exact Option.some.inj heq

theorem steady_prepared (haside : Aside m definition s u) : Steady s v := by
  refine ⟨fun key node hk hk' => ?_, ?_, hst.resolving_eq.trans haside.resolving⟩
  · rw [hst.get?_of_ne (.inr hk')]
    exact haside.same key node fun hk'' => by rw [hk] at hk''; cases hk''
  · have hnew : ∀ old, u.get? .topology definition = some old → old = topology := by
      intro old hold
      rw [haside.same .topology definition (fun hk => by cases hk), hget] at hold
      cases hold
    refine (haside.remembers fun key node hk ho => ?_).trans (.stored hst hnew)
    rw [h.structural definition key node hk ho, hget]
    rfl

end Storing

/-- Preparing a definition leaves an orderly cache in which nothing else has changed, or fails as
building the topology fails. -/
theorem prepare_cases (h : Orderly m s) (hd : m.doc.isDefinition definition = true) :
    (∃ topology links t, m.doc.buildTopology m.options definition = .ok (topology, links) ∧
      exec (m.prepare definition) s = (.ok topology, t) ∧ Orderly m t ∧ Steady s t ∧
      t.get? .topology definition = some topology) ∨
    (∃ e, m.doc.buildTopology m.options definition = .error e ∧
      exec (m.prepare definition) s = (.error (.model (m.buildError definition e)), s)) := by
  cases hget : s.get? .topology definition with
  | some topology =>
    obtain ⟨_, links, hb⟩ := h.topology definition topology hget
    exact .inl ⟨topology, links, s, hb, exec_prepare_stored hd hget, h, .refl s, hget⟩
  | none =>
    cases hb : m.doc.buildTopology m.options definition with
    | error e => exact .inr ⟨e, rfl, exec_prepare_error hd hget hb⟩
    | ok built =>
      obtain ⟨topology, links⟩ := built
      obtain ⟨u, v, hu, hfrom, haside, hst, hex⟩ :=
        exec_prepare_built hd hget hb (fromLinks_of_orderly h hget)
      exact .inl ⟨topology, links, v, rfl, hex, h.prepared hget hb hst hd hu hfrom.owned haside,
        steady_prepared h hget hst haside, hst.get?_self⟩

/-- A member lies within its parent, and comes after it. -/
theorem Orderly.parent_within (h : Orderly m s) {member parent : NodeId}
    (hp : s.get? .parent member = some parent) : m.doc.Within parent member ∧ parent < member := by
  obtain ⟨entry, he, _⟩ := Cache.exists_entryAt?_of_get? hp
  have ho := h.owned.owner member entry.owner (by rw [Cache.owner?, he, Option.map_some])
  have hd := (Document.owner?_eq_some_iff.mp ho).1
  rw [h.structural entry.owner .parent member rfl ho] at hp
  split at hp
  · next htop =>
    obtain ⟨topology, htop⟩ := Option.isSome_iff_exists.mp htop
    obtain ⟨_, links, hb⟩ := h.topology _ _ htop
    obtain ⟨u, v, _, hfrom, _, hst, hex⟩ :=
      exec_prepare_built hd (Cache.get?_empty .topology entry.owner) hb
        (fromLinks_of_orderly orderly_empty (Cache.get?_empty .topology entry.owner))
    rw [freshly, hex, hst.get?_of_ne (.inr (by decide))] at hp
    exact ((Document.built_buildTopology hb).parent_within (hfrom.parent member parent ho hp)).2
  · cases hp

theorem Orderly.parent_lt (h : Orderly m s) {member parent : NodeId}
    (hp : s.get? .parent member = some parent) : parent < member :=
  (h.parent_within hp).2

end Preparing

/-! ## Dropping a definition -/

theorem Owned.mem_ownedNodes_iff (h : Owned m s) (hd : m.doc.isDefinition definition = true) :
    node ∈ s.ownedNodes definition ↔
      m.doc.Within definition node ∧ (s.entryAt? node).isSome = true := by
  rw [h.listed]
  constructor
  · intro ho
    refine ⟨(Document.owner?_eq_some_iff.mp (h.owner node definition ho)).2, ?_⟩
    rw [Cache.owner?] at ho
    obtain ⟨entry, he, _⟩ := Option.map_eq_some_iff.mp ho
    rw [he]
    rfl
  · rintro ⟨hw, he⟩
    obtain ⟨entry, he⟩ := Option.isSome_iff_exists.mp he
    have ho : s.owner? node = some entry.owner := by rw [Cache.owner?, he, Option.map_some]
    have hd' := h.owner node entry.owner ho
    rw [owner?_of_within hd hw] at hd'
    rw [ho, hd']

theorem Owned.drop (h : Owned m s) (definition : NodeId) :
    Owned m (s.dropAll definition).1 := by
  have hindexed := h.indexed.drop definition
  refine ⟨fun node o ho => h.owner node o ?_, hindexed.listed, hindexed.nodup⟩
  rw [Cache.owner?, h.indexed.entryAt?_drop] at ho
  split at ho
  · cases ho
  · exact ho

/-- A node whose owner is another one keeps its facts. -/
theorem Owned.get?_drop (h : Owned m s) (definition node : NodeId) (key : FactKey) :
    (s.dropAll definition).1.get? key node =
      if m.doc.owner? node = some definition then none else s.get? key node := by
  rw [Cache.get?, Cache.entryAt?_dropAll]
  by_cases hn : node ∈ s.ownedNodes definition
  · rw [if_pos hn, if_pos (h.owner node definition ((h.listed definition node).mp hn))]
    rfl
  · rw [if_neg hn]
    split
    · next ho =>
      have hnone : s.entryAt? node = none := by
        cases he : s.entryAt? node with
        | none => rfl
        | some entry =>
          have howner : s.owner? node = some
              entry.owner := by rw [Cache.owner?, he, Option.map_some]
          have hd := h.owner node entry.owner howner
          rw [ho] at hd
          cases hd
          exact absurd ((h.listed _ node).mpr howner) hn
      rw [hnone]
      rfl
    · rfl

theorem Orderly.drop (h : Orderly m s) (definition : NodeId) :
    Orderly m (s.dropAll definition).1 := by
  have hget := h.owned.get?_drop definition
  refine ⟨h.owned.drop definition, fun d t hd => ?_, fun d key node hk ho => ?_⟩
  · rw [hget] at hd
    split at hd
    · cases hd
    · exact h.topology d t hd
  · rw [hget, hget]
    by_cases hdd : d = definition
    · subst hdd
      rw [if_pos ho]
      split
      · simp
      · next hno =>
        -- only a definition has a topology, and a definition owns itself
        cases ht : s.get? .topology d with
        | none => simp
        | some t => exact absurd (Document.owner?_of_isDefinition (h.topology d t ht).1) hno
    · have hne : m.doc.owner? node ≠ some definition := by
        rw [ho]
        exact fun heq => hdd (Option.some.inj heq)
      rw [if_neg hne, h.structural d key node hk ho]
      cases ht : s.get? .topology d with
      | none => simp
      | some t =>
        have hown := Document.owner?_of_isDefinition (h.topology d t ht).1
        have hno : m.doc.owner? d ≠ some definition := by
          rw [hown]
          exact fun heq => hdd (Option.some.inj heq)
        rw [if_neg hno]

end Model

end SchemaRefs
