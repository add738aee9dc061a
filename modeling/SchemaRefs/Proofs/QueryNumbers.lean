import SchemaRefs.Proofs.Histories
import SchemaRefs.Proofs.Numbering

/-!
# Query numbers in sessions

A session stores the number of every node that stands for a query when it prepares a definition.
What it stores is what the topology says (`freshly_query`), although it is read off the nodes of the
scopes and not off the table of the topology. Together with the order in which queries are visited
this gives the rules for the numbers of `SET`s (`set_arms_numbered_in_order`).
-/

namespace SchemaRefs

namespace Model

open CacheM

variable {m : Model} {definition : NodeId} {topology : Topology} {links : List TopologyLink}
  {i : Nat} {node : NodeId} {scope : QueryScope}

theorem mem_scopeNodes_iff :
    node ∈ m.scopeNodes scope ↔ m.doc.StandsFor scope node := by
  simp only [scopeNodes, Document.StandsFor, List.cons_append, List.nil_append, List.mem_cons,
    List.mem_flatMap, Option.mem_toList]

/-! ## Storing the numbers -/

variable (m) in
/-- All stored numbers are those of the topology. -/
structure NumbersFrom (topology : Topology) (s : Cache) : Prop where
  owned : Owned m s
  sound : ∀ node i, s.get? .query node = some i → (node, i) ∈ topology.queryTable

/-- Numbers stay, and the given nodes have got one. -/
structure Gains (nodes : List NodeId) (s t : Cache) : Prop where
  kept : ∀ node, (s.get? .query node).isSome = true → (t.get? .query node).isSome = true
  gained : ∀ node ∈ nodes, (t.get? .query node).isSome = true

theorem Gains.append {xs ys : List NodeId} {s t u : Cache} (h : Gains xs s t) (h' : Gains ys t u) :
    Gains (xs ++ ys) s u := by
  refine ⟨fun node hn => h'.kept node (h.kept node hn), fun node hn => ?_⟩
  rcases List.mem_append.mp hn with hn | hn
  · exact h'.kept node (h.gained node hn)
  · exact h'.gained node hn

theorem keeps_setFirst_query (ho : m.doc.owner? node = some definition)
    (hi : (node, i) ∈ topology.queryTable) :
    Keeps (m.NumbersFrom topology) (Gains [node]) (fun _ => False) (fun _ => True)
      (setFirst .query definition node i) := by
  intro s hs
  rw [setFirst, exec_bind_ok (exec_get s)]
  split
  · next hc =>
    refine ⟨hs, ⟨fun _ h => h, fun other hother => ?_⟩, trivial⟩
    rw [List.mem_singleton.mp hother]
    exact hc
  · next hno =>
    have hnone : ∀ old, s.get? .query node = some old → FactKey.mayReplace .query old i = true := by
      intro old hold
      simp [Cache.contains, hold] at hno
    obtain ⟨t, hex, hst⟩ := hs.owned.setFact ho hnone
    rw [hex]
    have hget : ∀ other, t.get? .query other =
        if other = node then some i else s.get? .query other := by
      intro other
      split
      · next heq => rw [heq, hst.get?_self]
      · next hne => exact hst.get?_of_ne (.inl hne)
    refine ⟨⟨hs.owned.stored hst ho, fun other j hj => ?_⟩,
      ⟨fun other h => ?_, fun other h => ?_⟩, trivial⟩
    · rw [hget] at hj
      split at hj
      · next heq =>
        cases hj
        exact heq ▸ hi
      · exact hs.sound other j hj
    · rw [hget]
      split
      · rfl
      · exact h
    · rw [hget, if_pos (List.mem_singleton.mp h)]
      rfl

/-- A loop gains what each of its rounds gains. -/
theorem keeps_forM_gains {α : Type} {f : α → CacheM PUnit} {nodes : α → List NodeId} (l : List α)
    (hf : ∀ a ∈ l, Keeps (m.NumbersFrom topology) (Gains (nodes a)) (fun _ => False) (fun _ => True)
      (f a)) :
    Keeps (m.NumbersFrom topology) (Gains (l.flatMap nodes)) (fun _ => False) (fun _ => True)
      (l.forM f) := by
  induction l with
  | nil => exact fun s hs => ⟨hs, ⟨fun _ h => h, fun _ h => by cases h⟩, trivial⟩
  | cons a rest ih =>
    intro s hs
    obtain ⟨ht, hgain, hend⟩ := hf a List.mem_cons_self s hs
    rcases hex : exec (f a) s with ⟨e | ⟨⟩, t⟩
    · rw [hex] at hend
      exact hend.elim
    · rw [hex] at ht hgain
      obtain ⟨hu, hgain', hend'⟩ := ih (fun b hb => hf b (List.mem_cons_of_mem _ hb)) t ht
      have hrun : exec ((a :: rest).forM f) s = exec (rest.forM f) t := exec_bind_ok hex _
      rw [hrun]
      exact ⟨hu, hgain.append hgain', hend'⟩

/-- Links are stored without touching numbers. -/
theorem keeps_storeLink_query (definition : NodeId) (link : TopologyLink) :
    Keeps (fun _ => True) (fun s t => ∀ node, t.get? .query node = s.get? .query node)
      (fun _ => True)
      (fun _ => True) (storeLink definition link) := by
  have hset : ∀ {key : FactKey} {node : NodeId} {value : key.Value}, key ≠ .query →
      Keeps (fun _ => True) (fun s t => ∀ node, t.get? .query node = s.get? .query node)
        (fun _ => True) (fun _ => True) (setFact key definition node value) := by
    intro key node value hk s _
    rw [exec_setFact]
    rcases s.set_cases key definition node value with ⟨t, hok, hst, _⟩ | ⟨_, _, _, herr⟩ |
      ⟨_, _, _, _, _, _, herr⟩
    · rw [hok]
      exact ⟨trivial, fun other => hst.get?_of_ne (.inr hk.symm), trivial⟩
    · rw [herr]
      exact ⟨trivial, fun _ => rfl, trivial⟩
    · rw [herr]
      exact ⟨trivial, fun _ => rfl, trivial⟩
  cases link with
  | parent member parent => exact hset (by decide)
  | column column element =>
    refine Keeps.bind (fun _ _ _ h h' node => (h' node).trans (h node)) (hset (by decide))
      fun _ _ => ?_
    intro s _
    rw [setFirst, exec_bind_ok (exec_get s)]
    split
    · exact ⟨trivial, fun _ => rfl, trivial⟩
    · exact hset (by decide) s trivial

theorem mem_queryTable_of_scopeNodes (hb : m.doc.Built definition topology links)
    (hs : topology.scope? i = some scope) (hn : node ∈ m.scopeNodes scope) :
    (node, i) ∈ topology.queryTable := by
  obtain ⟨hnode, hselect⟩ := hb.mem_of_scope hs
  have hsets := (hb.complete i scope hs).sets
  rcases mem_scopeNodes_iff.mp hn with rfl | rfl | ⟨set, hset, rfl | hbody⟩
  · exact hnode
  · exact hselect
  · exact (hsets _ hset).1
  · exact (hsets set hset).2 node hbody

variable (m) in
/-- The part of a preparation that stores numbers. -/
def storeNumbers (definition : NodeId) (topology : Topology) : CacheM Unit :=
  topology.queries.zipIdx.forM fun (scope, index) =>
    (m.scopeNodes scope).forM fun node => setFirst .query definition node index

variable (m) in
/-- The nodes that stand for the queries of a topology. -/
def topologyNodes (topology : Topology) : List NodeId :=
  topology.queries.zipIdx.flatMap fun entry => (m.scopeNodes entry.1).flatMap fun node => [node]

theorem mem_topologyNodes (hs : topology.scope? i = some scope)
    (hn : node ∈ m.scopeNodes scope) : node ∈ m.topologyNodes topology :=
  List.mem_flatMap.mpr ⟨(scope, i), List.mk_mem_zipIdx_iff_getElem?.mpr hs,
    List.mem_flatMap.mpr ⟨node, hn, List.mem_singleton.mpr rfl⟩⟩

theorem keeps_storeNumbers (hd : m.doc.isDefinition definition = true)
    (hb : m.doc.Built definition topology links) :
    Keeps (m.NumbersFrom topology) (Gains (m.topologyNodes topology)) (fun _ => False)
      (fun _ => True)
      (m.storeNumbers definition topology) := by
  refine keeps_forM_gains _ fun entry he => keeps_forM_gains _ fun node hn => ?_
  have hmem := mem_queryTable_of_scopeNodes hb (getElem?_of_mem_zipIdx he) hn
  exact keeps_setFirst_query (owner?_of_within hd (hb.within_of_mem hmem).1) hmem

/-- The numbers that a new session stores for a definition are those of its topology. -/
theorem freshly_query (hd : m.doc.isDefinition definition = true)
    (hb : m.doc.buildTopology m.options definition = .ok (topology, links)) (node : NodeId) :
    (m.freshly definition).get? .query node = topology.queryOf? node := by
  have hbuilt := Document.built_buildTopology hb
  obtain ⟨u, v, hu, _, _, hst, hex⟩ :=
    exec_prepare_built hd (Cache.get?_empty .topology definition) hb
      (fromLinks_of_orderly orderly_empty (Cache.get?_empty .topology definition))
  rw [freshly, hex, hst.get?_of_ne (.inr (by decide))]
  have hstart : m.NumbersFrom topology (Cache.empty.count countBuild) :=
    ⟨owned_empty.count _, fun n i h => by simp at h⟩
  obtain ⟨hnumbers, hgains, hend⟩ := keeps_storeNumbers hd hbuilt _ hstart
  have hstore : m.storeStructure definition topology links =
      (m.storeNumbers definition topology >>= fun _ => links.forM (storeLink definition)) := rfl
  rcases hw : exec (m.storeNumbers definition topology)
    (Cache.empty.count countBuild) with ⟨e | ⟨⟩, w⟩
  · rw [hw] at hend
    exact hend.elim
  · rw [hw] at hnumbers hgains
    rw [hstore, exec_bind_ok hw] at hu
    have hlinks := (Keeps.forM (fun _ _ => rfl)
      (fun _ _ _ h h' node => (h' node).trans (h node)) links
      fun link _ => keeps_storeLink_query definition link) w trivial
    rw [hu] at hlinks
    rw [hlinks.2.1 node]
    cases hget : w.get? .query node with
    | some i => exact (hbuilt.queryOf?_eq_some_iff.mpr (hnumbers.sound node i hget)).symm
    | none =>
      cases hq : topology.queryOf? node with
      | none => rfl
      | some i =>
        obtain ⟨scope, hs, hfor⟩ := (Document.enumerates_buildTopology hb).accounted node i
          (hbuilt.queryOf?_eq_some_iff.mp hq)
        have hsome := hgains.gained node (mem_topologyNodes hs (mem_scopeNodes_iff.mpr hfor))
        rw [hget] at hsome
        cases hsome

/-! ## Asking for numbers -/

variable {s : Cache}

/-- A prepared definition is one whose topology can be built. -/
theorem buildTopology_of_prepare (hs : Orderly m s)
    (hp : (exec (m.prepare definition) s).1 = .ok topology) :
    m.doc.isDefinition definition = true ∧
      ∃ links, m.doc.buildTopology m.options definition = .ok (topology, links) := by
  cases hd : m.doc.isDefinition definition with
  | false =>
    rw [exec_prepare_undefined hd] at hp
    cases hp
  | true =>
    rcases prepare_cases hs hd with ⟨topology', links, t, hb, hex, _⟩ | ⟨e, _, hex⟩
    · rw [hex] at hp
      cases hp
      exact ⟨rfl, links, hb⟩
    · rw [hex] at hp
      cases hp

/-- In every session, the number of a node is what the topology of its definition says. -/
theorem exec_queryNumber (hs : Orderly m s)
    (hb : m.doc.buildTopology m.options definition = .ok (topology, links))
    (ho : m.doc.owner? node = some definition) :
    (exec (m.queryNumber node) s).1 = .ok ((topology.queryOf? node).map (· + 1)) := by
  have hd := (Document.owner?_eq_some_iff.mp ho).1
  have hown : exec (m.ownerOf node) s = (.ok definition, s) := by
    rw [exec_ownerOf, ho]
  rcases prepare_cases hs hd with ⟨topology', links', t, hb', hex, ht, _, hget⟩ | ⟨e, hb', _⟩
  · rw [hb] at hb'
    cases hb'
    have hfact : exec (m.preparedFact .query node) s = (.ok (topology.queryOf? node), t) := by
      rw [preparedFact, exec_bind_ok hown, exec_bind_ok hex, exec_fact?,
        get?_of_topology ht rfl ho (by rw [hget]; rfl), freshly_query hd hb]
    rw [queryNumber, exec_bind_ok hfact]
    rfl
  · rw [hb] at hb'
    cases hb'

/-! ## Numbers of queries -/

/-- The nodes with a number are the queries of the definition and their bodies. -/
theorem isSome_queryOf?_iff
    (hb : m.doc.buildTopology m.options definition = .ok (topology, links)) :
    (topology.queryOf? node).isSome = true ↔ m.doc.IsQueryPart definition node := by
  have hbuilt := Document.built_buildTopology hb
  have henum := Document.enumerates_buildTopology hb
  constructor
  · intro hsome
    obtain ⟨i, hi⟩ := Option.isSome_iff_exists.mp hsome
    exact henum.known node i (hbuilt.queryOf?_eq_some_iff.mp hi)
  · have hnumber : ∀ i, (node, i) ∈ topology.queryTable →
        (topology.queryOf? node).isSome = true := by
      intro i hi
      rw [hbuilt.queryOf?_eq_some_iff.mpr hi]
      rfl
    rintro (hprojected | ⟨query, hq, rfl | hbody⟩)
    · obtain ⟨i, hi⟩ := henum.projected node hprojected
      exact hnumber i hi
    · obtain ⟨i, hi, _⟩ := henum.numbered node hq
      exact hnumber i hi
    · obtain ⟨i, _, hi, _⟩ := henum.numbered query hq
      exact hnumber i (hi node hbody)

/-- A `SET` has the number of its leading query and is listed once, in the scope of that query. -/
theorem shares_leading_scope (hb : m.doc.buildTopology m.options definition = .ok (topology, links))
    {set body : NodeId} (hq : m.doc.IsQueryOf definition set)
    (hset : m.doc.prop? set "SET" = some body) :
    (∃ first arms i scope, m.doc.propItems body "args" = first :: arms ∧
      topology.queryOf? set = some i ∧ topology.queryOf? body = some i ∧
      topology.queryOf? first = some i ∧ topology.scope? i = some scope ∧ set ∈ scope.setNodes) ∧
    (topology.queries.flatMap QueryScope.setNodes).count set = 1 := by
  have hbuilt := Document.built_buildTopology hb
  obtain ⟨i, hi, hbody, harms⟩ := (Document.enumerates_buildTopology hb).numbered set hq
  obtain ⟨⟨first, arms, hargs, hfirst⟩, scope, hs, hmem⟩ := harms body hset
  have hbody' := hbody body (by rw [Document.body?, hset]; rfl)
  refine ⟨⟨first, arms, i, scope, hargs, hbuilt.queryOf?_eq_some_iff.mpr hi,
    hbuilt.queryOf?_eq_some_iff.mpr hbody', hbuilt.queryOf?_eq_some_iff.mpr hfirst, hs, hmem⟩, ?_⟩
  exact List.count_eq_one_of_mem hbuilt.nodup_setNodes
    (List.mem_flatMap.mpr ⟨scope, List.mem_of_getElem? hs, hmem⟩)

/-- In every session that has prepared a definition, a `SET` shares the scope of its leading query
and its arms are numbered in order, each with all that is inside of it. The nodes with a number are
the queries and their bodies, and a session answers with the numbers of the topology. -/
theorem set_arms_numbered_in_order {m : Model} {s : Cache} {definition : NodeId}
    {topology : Topology} (hs : m.Reachable s)
    (hp : (exec (m.prepare definition) s).1 = .ok topology) :
    (∀ set body, m.doc.IsQueryOf definition set → m.doc.prop? set "SET" = some body →
      ((∃ first arms i scope, m.doc.propItems body "args" = first :: arms ∧
        topology.queryOf? set = some i ∧ topology.queryOf? body = some i ∧
        topology.queryOf? first = some i ∧ topology.scope? i = some scope ∧ set ∈ scope.setNodes) ∧
        (topology.queries.flatMap QueryScope.setNodes).count set = 1) ∧
      (∀ arm ∈ m.doc.propItems body "args", (topology.queryOf? arm).isSome = true) ∧
      (m.doc.propItems body "args").Pairwise fun arm later =>
        ∀ node i j, m.doc.Within arm node → topology.queryOf? node = some i →
          topology.queryOf? later = some j → i < j) ∧
    (∀ node, (topology.queryOf? node).isSome = true ↔ m.doc.IsQueryPart definition node) ∧
    ∀ node, m.doc.owner? node = some definition →
      (exec (m.queryNumber node) s).1 = .ok ((topology.queryOf? node).map (· + 1)) := by
  have horderly := (settled_of_reachable hs).agrees.orderly
  obtain ⟨_, links, hb⟩ := buildTopology_of_prepare horderly hp
  have hselects := (Document.enumerates_buildTopology hb).selects
  refine ⟨fun set body hq hset => ⟨shares_leading_scope hb hq hset, fun arm harm => ?_, ?_⟩,
    fun node => isSome_queryOf?_iff hb, fun node ho => exec_queryNumber horderly hb ho⟩
  · have hnested := hq.nested (Document.nestedQueries_of_set hset ▸ harm)
    exact (isSome_queryOf?_iff hb).mpr (.inr ⟨arm, hnested, .inl rfl⟩)
  · exact (Document.built_buildTopology hb).pairwise_arms hselects hq hset

/-- In the union of unions, the inner union shares the scope of its first query, whose sub-query
comes before the second query. -/
theorem set_arms_numbered_in_order_union :
    (exec ((⟨unionDocument, {}⟩ : Model).prepare 6) Cache.empty).1 = .ok unionTopology ∧
      unionDocument.IsQueryOf 6 10 ∧ unionDocument.prop? 10 "SET" = some 11 ∧
      (unionTopology.queries.flatMap QueryScope.setNodes).count 10 = 1 ∧
      (∀ j, unionTopology.queryOf? 26 = some j → 1 < j) ∧
      (exec ((⟨unionDocument, {}⟩ : Model).queryNumber 15) Cache.empty).1 = .ok (some 2) := by
  have hp : (exec ((⟨unionDocument, {}⟩ : Model).prepare 6) Cache.empty).1 = .ok unionTopology :=
    eq_ok_of_toOption (by decide +kernel)
  have hq : unionDocument.IsQueryOf 6 10 :=
    ⟨7, by decide +kernel, .tail .refl (show 10 ∈ unionDocument.nestedQueries 7 by decide +kernel)⟩
  have hset : unionDocument.prop? 10 "SET" = some 11 := by decide +kernel
  have hargs : unionDocument.propItems 11 "args" = [13, 26] := by decide +kernel
  have hin : unionDocument.Within 13 15 :=
    .step (show unionDocument.container? 15 = some 14 by decide +kernel)
      (.step (show unionDocument.container? 14 = some 13 by decide +kernel) .refl)
  obtain ⟨hsets, _, hnumber⟩ := set_arms_numbered_in_order .new hp
  obtain ⟨⟨_, hcount⟩, _, horder⟩ := hsets 10 11 hq hset
  have horder : ([13, 26] : List NodeId).Pairwise fun arm later => ∀ node i j,
      unionDocument.Within arm node → unionTopology.queryOf? node = some i →
        unionTopology.queryOf? later = some j → i < j := hargs ▸ horder
  refine ⟨hp, hq, hset, hcount, fun j hj => ?_, hnumber 15 (by decide +kernel)⟩
  exact (List.pairwise_cons.mp horder).1 26 (List.mem_singleton.mpr rfl) 15 1 j hin rfl hj

end Model

end SchemaRefs
