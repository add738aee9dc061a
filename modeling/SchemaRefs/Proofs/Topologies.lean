import SchemaRefs.Proofs.Visits

/-!
# What a topology says

`built_buildTopology`: a topology that was built reflects the document. Its skeleton is sound, its
scopes are complete, and its links come from the members, mixins and columns below the definition.
From this follow the facts that sessions rely on: a node stands for one query
(`queryOf?_eq_some_iff`), no member has two parents and no column two members
(`Built.parent_unique`, `Built.element_unique`), and everything that is stored lies within the
definition.
-/

namespace SchemaRefs

/-- The skeleton of a topology. -/
def Topology.skeleton (topology : Topology) : Skeleton :=
  ⟨topology.queries.map QueryScope.shape, topology.queryTable⟩

namespace Document

open Skeleton

variable {doc : Document} {definition : NodeId} {links : List TopologyLink} {i : Nat}
  {main member node parent select : NodeId} {options : Options} {topology : Topology}

theorem sound_of_within {sk : Skeleton} (hw : doc.Within definition main)
    (h : sk.Sound doc main) : sk.Sound doc definition := by
  refine ⟨h.number, h.functional, h.listed, fun q i hq => ?_, h.body, h.next_lt, h.chain, h.cover⟩
  obtain ⟨shape, hi, hsel, hmain, hin⟩ := h.entry q i hq
  exact ⟨shape, hi, hsel, hw.trans hmain, hin⟩

variable (doc definition) in
/-- A topology of a definition, with the links found on the way, reflects the document. -/
structure Built (topology : Topology) (links : List TopologyLink) : Prop where
  sound : topology.skeleton.Sound doc definition
  /-- All query nodes lie within the query of the definition. -/
  root : ∀ q i, (q, i) ∈ topology.queryTable →
    ∃ main, doc.query? definition = some main ∧ doc.Within main q
  complete : ∀ i scope, topology.queries[i]? = some scope →
    doc.Complete definition topology.queryTable i scope
  parents : ∀ member parent, .parent member parent ∈ links →
    doc.Declares definition definition member parent ∨
      ∃ main, doc.query? definition = some main ∧ doc.Within main parent ∧ doc.IsMixin parent member
  columns : ∀ column element, .column column element ∈ links → doc.Within definition element ∧
    ∃ select, doc.Within definition select ∧ doc.IsColumn select column
  functional : ∀ column element element', .column column element ∈ links →
    .column column element' ∈ links → element = element'

theorem prop?_of_query? (h : doc.query? definition = some main) :
    ∃ key, (key = "query" ∨ key = "projection") ∧ doc.prop? definition key = some main := by
  unfold query? at h
  cases hq : doc.prop? definition "query" with
  | some query =>
    rw [hq] at h
    cases h
    exact ⟨"query", .inl rfl, hq⟩
  | none =>
    rw [hq] at h
    exact ⟨"projection", .inr rfl, h⟩

theorem step?_of_isProjection (h : doc.query? definition = some main)
    (hp : doc.isProjection definition = true) : doc.step? main = some (.key "projection") := by
  unfold query? at h
  unfold isProjection at hp
  cases hq : doc.prop? definition "query" with
  | some query => simp [hasProp, hq] at hp
  | none =>
    rw [hq] at h
    exact (container?_of_prop? h).2

theorem sound_empty (main : NodeId) :
    ({ links } : Draft).skeleton.Sound doc main :=
  ⟨by simp [Draft.skeleton], by simp [Draft.skeleton], by simp [Draft.skeleton],
    by simp [Draft.skeleton], by simp [Draft.skeleton], by simp [Draft.skeleton],
    by simp [Draft.skeleton], by simp [Draft.skeleton]⟩

theorem open_empty (main : NodeId) (count : Nat) :
    Open doc main ({ links } : Draft).skeleton main none count :=
  ⟨by simp [Draft.skeleton], by simp [Draft.skeleton, Innermost], by simp [Draft.skeleton], .refl,
    by cases count <;> trivial⟩

/-- The main query of a definition is visited like any other. -/
theorem visited_visitMain {start : Draft}
    (hstart : start = { links := doc.memberLinks definition definition })
    (hq : doc.query? definition = some main) :
    Builds (doc.visitMain options definition) start fun _ after =>
      ∃ index, doc.Visited definition main start main none index after := by
  have hmain : doc.Within definition main := by
    obtain ⟨key, _, hkey⟩ := prop?_of_query? hq
    exact within_of_container? (container?_of_prop? hkey).1
  have hs : start.skeleton.Sound doc main := hstart ▸ sound_empty main
  have ho : ∀ count, Open doc main start.skeleton main none count :=
    fun count => hstart ▸ open_empty main count
  have hvisit : doc.VisitsWell definition main 1
      (doc.visitQuery options definition maxQueryNesting) :=
    visited_visitQuery hmain maxQueryNesting (Nat.le_refl _)
  unfold visitMain
  rw [hq]
  have hpure : ∀ index after, doc.Visited definition main start main none index after →
      Builds (pure ⟨⟩ : BuildM PUnit) after fun _ after =>
        ∃ index, doc.Visited definition main start main none index after :=
    fun index after h => Builds.pure ⟨index, h⟩
  dsimp only
  split
  · next hp =>
    refine Builds.bind ?_ hpure
    exact visited_visitSelect (v := ⟨definition, main, start, main, main, none, 0⟩) hmain
      hvisit hs (ho 0) (Nat.zero_le _) .refl (.inr (step?_of_isProjection hq hp))
  · exact Builds.bind (hvisit start main none true hs (ho _)) hpure

/-- A topology is what the visit of the main query leaves. -/
theorem run_visitMain_of_buildTopology
    (h : doc.buildTopology options definition = .ok (topology, links)) :
    topology.definition = definition ∧
      (doc.visitMain options definition).run { links := doc.memberLinks definition definition } =
        .ok ((), ⟨topology.queries, topology.queryTable, links⟩) := by
  unfold buildTopology at h
  dsimp only at h
  cases hrun : (doc.visitMain options definition).run
      { links := doc.memberLinks definition definition } with
  | error e =>
    rw [hrun] at h
    cases h
  | ok result =>
    obtain ⟨_, draft⟩ := result
    rw [hrun] at h
    cases h
    exact ⟨rfl, rfl⟩

theorem declares_of_parent_mem_memberLinks
    (h : .parent member parent ∈ doc.memberLinks definition definition) :
    doc.Declares definition definition member parent := by
  obtain ⟨_, _, heq, hd⟩ := declares_of_mem_memberLinks h
  cases heq
  exact hd

theorem column_not_mem_memberLinks (column element : NodeId) :
    .column column element ∉ doc.memberLinks definition definition := by
  intro h
  obtain ⟨_, _, heq, _⟩ := declares_of_mem_memberLinks h
  cases heq

/-- Without a query there are only the members of the definition. -/
theorem built_of_no_query (hq : topology.queries = []) (ht : topology.queryTable = []) :
    doc.Built definition topology (doc.memberLinks definition definition) := by
  refine ⟨?_, by simp [ht], by simp [hq],
    fun _ _ hl => .inl (declares_of_parent_mem_memberLinks hl),
    fun c e hl => absurd hl (column_not_mem_memberLinks c e),
    fun c e _ hl => absurd hl (column_not_mem_memberLinks c e)⟩
  have hempty : (⟨topology.queries, topology.queryTable, []⟩ : Draft).skeleton.Sound doc
      definition := by
    rw [hq, ht]
    exact sound_empty definition
  exact hempty

/-- The visit of the main query adds the links of queries to those of the members. -/
theorem built_of_visited {index : Nat} (hq : doc.query? definition = some main)
    (hv : doc.Visited definition main { links := doc.memberLinks definition definition }
      main none index ⟨topology.queries, topology.queryTable, links⟩) :
    doc.Built definition topology links := by
  have hmain : doc.Within definition main := by
    obtain ⟨key, _, hkey⟩ := prop?_of_query? hq
    exact within_of_container? (container?_of_prop? hkey).1
  obtain ⟨new, hnew, hfrom⟩ := hv.links
  have hcases : ∀ link, link ∈ links → link ∈ doc.memberLinks definition definition ∨ link ∈ new :=
    fun link hl => List.mem_append.mp (hnew ▸ hl)
  have hcolumn : ∀ c e, .column c e ∈ links → .column c e ∈ new :=
    fun c e hl => (hcases _ hl).resolve_left (column_not_mem_memberLinks c e)
  refine ⟨sound_of_within hmain hv.sound, fun q i hqi => ?_, fun i scope hget => ?_,
    fun m p hl => ?_, fun c e hl => ?_, fun c e e' hl hl' => ?_⟩
  · obtain ⟨_, _, _, hin, _⟩ := hv.sound.entry q i hqi
    exact ⟨main, hq, hin⟩
  · exact hv.complete i scope (Nat.zero_le _) hget
  · rcases hcases _ hl with hl | hl
    · exact .inl (declares_of_parent_mem_memberLinks hl)
    · exact .inr ⟨main, hq, hfrom.parents m p hl⟩
  · obtain ⟨he, select, hin, _, hc⟩ := hfrom.columns c e (hcolumn c e hl)
    exact ⟨he, select, hmain.trans hin, hc⟩
  · exact hfrom.functional c e e' (hcolumn c e hl) (hcolumn c e' hl')

/-- A topology that was built reflects the document. -/
theorem built_buildTopology (h : doc.buildTopology options definition = .ok (topology, links)) :
    doc.Built definition topology links := by
  obtain ⟨_, hrun⟩ := run_visitMain_of_buildTopology h
  cases hq : doc.query? definition with
  | none =>
    have hd : ({ links := doc.memberLinks definition definition } : Draft) =
        ⟨topology.queries, topology.queryTable, links⟩ := by
      unfold visitMain at hrun
      rw [hq] at hrun
      exact congrArg Prod.snd (Except.ok.inj hrun)
    obtain rfl : doc.memberLinks definition definition = links := congrArg Draft.links hd
    exact built_of_no_query (congrArg Draft.queries hd).symm (congrArg Draft.queryTable hd).symm
  | some main =>
    obtain ⟨index, hv⟩ := visited_visitMain rfl hq _ _ hrun
    exact built_of_visited hq hv

/-! ## Links -/

theorem IsMixin.container? (h : doc.IsMixin select member) :
    (doc.container? member).bind doc.container? = some select := by
  obtain ⟨mixins, name, hm, hmem⟩ := h
  rw [(container?_of_mem_entries hmem).1, Option.bind_some, (container?_of_prop? hm).1]

theorem IsMixin.within (h : doc.IsMixin select member) :
    doc.Within select member ∧ select < member := by
  obtain ⟨mixins, name, hm, hmem⟩ := h
  exact ⟨(within_of_container? (container?_of_prop? hm).1).trans
    (within_of_container? (container?_of_mem_entries hmem).1),
    Nat.lt_trans (prop?_lt hm).1 (lt_of_mem_entries hmem).1⟩

theorem IsColumn.within {column : NodeId} (h : doc.IsColumn select column) :
    doc.Within select column := by
  obtain ⟨columns, hc, hb⟩ := h
  exact (within_of_container? (container?_of_prop? hc).1).trans hb.within.1

section

variable {topology : Topology} {links : List TopologyLink}

/-- A member lies within the definition and after its parent, which lies within the definition
too. -/
theorem Built.parent_within (h : doc.Built definition topology links)
    (hl : .parent member parent ∈ links) :
    doc.Within definition parent ∧ doc.Within parent member ∧ parent < member := by
  rcases h.parents member parent hl with hd | ⟨main, hq, hin, hm⟩
  · obtain ⟨h₁, h₂, h₃⟩ := hd.parent_within .refl
    exact ⟨h₁, h₂, Nat.lt_of_le_of_ne h₂.le h₃⟩
  · obtain ⟨key, _, hkey⟩ := prop?_of_query? hq
    have hmain : doc.Within definition main := within_of_container? (container?_of_prop? hkey).1
    exact ⟨hmain.trans hin, hm.within⟩

/-- No member has two parents. -/
theorem Built.parent_unique (h : doc.Built definition topology links) {parent' : NodeId}
    (hl : .parent member parent ∈ links) (hl' : .parent member parent' ∈ links) :
    parent = parent' := by
  -- members are declared outside of the query, mixins inside
  have hapart : ∀ {p p' : NodeId}, doc.Declares definition definition member p →
      ¬ ∃ main, doc.query? definition = some main ∧ doc.Within main p' ∧ doc.IsMixin p' member := by
    rintro p p' hd ⟨main, hq, hin, hm⟩
    obtain ⟨key, child, hkey, hchild, hw, _⟩ := hd.exists_prop?
    obtain ⟨key', hkey', hmain⟩ := prop?_of_query? hq
    obtain ⟨rfl, _⟩ := prop?_unique hchild hmain hw (hin.trans hm.within.1)
    rcases hkey' with rfl | rfl <;> exact absurd hkey (by decide)
  rcases h.parents member parent hl with hd | hm <;>
    rcases h.parents member parent' hl' with hd' | hm'
  · exact hd.unique hd'
  · exact absurd hm' (hapart hd)
  · exact absurd hm (hapart hd')
  · obtain ⟨_, _, _, hm⟩ := hm
    obtain ⟨_, _, _, hm'⟩ := hm'
    exact Option.some.inj (hm.container?.symm.trans hm'.container?)

theorem Built.column_within (h : doc.Built definition topology links) {column element : NodeId}
    (hl : .column column element ∈ links) :
    doc.Within definition column ∧ doc.Within definition element := by
  obtain ⟨he, select, hs, hc⟩ := h.columns column element hl
  exact ⟨hs.trans hc.within, he⟩

/-! ## Scopes -/

theorem mem_of_lookup {table : List (NodeId × Nat)}
    (h : table.lookup node = some i) : (node, i) ∈ table := by
  induction table with
  | nil => cases h
  | cons entry rest ih =>
    obtain ⟨q, j⟩ := entry
    rw [List.lookup_cons] at h
    split at h
    · next heq =>
      cases h
      rw [eq_of_beq heq]
      exact List.mem_cons_self
    · exact List.mem_cons_of_mem _ (ih h)

theorem exists_lookup_of_mem {table : List (NodeId × Nat)}
    (h : (node, i) ∈ table) : ∃ j, table.lookup node = some j := by
  induction table with
  | nil => cases h
  | cons entry rest ih =>
    obtain ⟨q, j⟩ := entry
    rw [List.lookup_cons]
    split
    · exact ⟨j, rfl⟩
    · next hne =>
      rcases List.mem_cons.mp h with heq | h
      · cases heq
        simp at hne
      · exact ih h

theorem Built.queryOf?_eq_some_iff (h : doc.Built definition topology links) :
    topology.queryOf? node = some i ↔ (node, i) ∈ topology.queryTable := by
  constructor
  · exact mem_of_lookup
  · intro hm
    obtain ⟨j, hj⟩ := exists_lookup_of_mem hm
    rw [Topology.queryOf?, hj, h.sound.functional node j i (mem_of_lookup hj) hm]

theorem getElem?_shapes (topology : Topology) (i : Nat) :
    topology.skeleton.shapes[i]? = (topology.scope? i).map QueryScope.shape := by
  simp [Topology.skeleton, Topology.scope?]

theorem Built.scope_of_mem (h : doc.Built definition topology links)
    (hm : (node, i) ∈ topology.queryTable) :
    ∃ scope, topology.scope? i = some scope ∧ doc.Within node scope.select ∧
      topology.skeleton.Innermost doc node scope.next := by
  obtain ⟨shape, hi, hw, _, hin⟩ := h.sound.entry node i hm
  rw [getElem?_shapes] at hi
  obtain ⟨scope, hs, rfl⟩ := Option.map_eq_some_iff.mp hi
  exact ⟨scope, hs, hw, hin⟩

theorem Built.mem_of_scope (h : doc.Built definition topology links) {scope : QueryScope}
    (hs : topology.scope? i = some scope) :
    (scope.node, i) ∈ topology.queryTable ∧ (scope.select, i) ∈ topology.queryTable := by
  refine h.sound.listed i scope.shape ?_
  rw [getElem?_shapes, hs, Option.map_some]

theorem Built.within_of_mem (h : doc.Built definition topology links)
    (hm : (node, i) ∈ topology.queryTable) : doc.Within definition node ∧ definition < node := by
  obtain ⟨main, hq, hin⟩ := h.root node i hm
  obtain ⟨key, _, hkey⟩ := prop?_of_query? hq
  exact ⟨(within_of_container? (container?_of_prop? hkey).1).trans hin,
    Nat.lt_of_lt_of_le (prop?_lt hkey).1 hin.le⟩

end

end Document

end SchemaRefs
