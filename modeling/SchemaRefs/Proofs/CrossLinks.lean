import Mathlib.Order.Bounds.Defs
import SchemaRefs.Proofs.ColumnMembers
import SchemaRefs.Proofs.DiscoveredQueries

/-!
# Columns and members refer to each other

A column knows the result member that it yields, and a result member knows the first column that was
linked with it. The columns of one query are linked in the order of their handles
(`Document.ascending_linkColumns`), and all columns of a member belong to one query, since no query
has its results among those of another one (`Document.Built.index_of_elements`). So the column of a
member is the least of all columns that yield it (`columns_and_members_cross_linked`).
-/

namespace SchemaRefs

namespace Document

variable {doc : Document} {options : Options} {definition : NodeId}
  {column element elements : NodeId}

/-! ## The results of different queries -/

section Carriers

variable {topology : Topology} {links : List TopologyLink} {i j : Nat} {scope other : QueryScope}

theorem Built.within_carrier (hb : doc.Built definition topology links)
    (hs : topology.scope? i = some scope) :
    doc.Within definition (carrier definition i scope.select) := by
  unfold carrier
  split
  · exact .refl
  · exact (hb.within_of_mem (hb.mem_of_scope hs).2).1

/-- No scope has its results within those of a scope. -/
theorem Built.not_within_elements (hb : doc.Built definition topology links)
    (hs : topology.scope? i = some scope) (ho : topology.scope? j = some other)
    (he : doc.prop? (carrier definition i scope.select) "elements" = some elements) :
    ¬ doc.Within elements (carrier definition j other.select) := by
  intro hw
  have hlt : definition < elements := Nat.lt_of_le_of_lt (hb.within_carrier hs).le (prop?_lt he).1
  have hnumber := (hb.mem_of_scope ho).2
  unfold carrier at he hw
  split at hw
  · exact absurd hw.le (Nat.not_le_of_lt hlt)
  · split at he
    · -- the query of a definition stands beside its elements
      obtain ⟨main, hq, hin⟩ := hb.root _ _ hnumber
      obtain ⟨key, hkey, hmain⟩ := prop?_of_query? hq
      obtain ⟨rfl, _⟩ := prop?_unique he hmain hw hin
      rcases hkey with hkey | hkey <;> exact absurd hkey (by decide)
    · have hnone := hb.queryOf?_of_unsearched hs (by decide) he hw
      rw [hb.queryOf?_eq_some_iff.mpr hnumber] at hnone
      cases hnone

theorem Built.carrier_inj (hb : doc.Built definition topology links)
    (hs : topology.scope? i = some scope) (ho : topology.scope? j = some other)
    (heq : carrier definition i scope.select = carrier definition j other.select) : i = j := by
  have hi := (hb.mem_of_scope hs).2
  have hj := (hb.mem_of_scope ho).2
  unfold carrier at heq
  split at heq <;> split at heq
  · omega
  · exact absurd heq (Nat.ne_of_lt (hb.within_of_mem hj).2)
  · exact absurd heq.symm (Nat.ne_of_lt (hb.within_of_mem hi).2)
  · exact hb.sound.functional _ i j hi (heq ▸ hj)

/-- A node lies within the results of at most one scope. -/
theorem Built.index_of_elements (hb : doc.Built definition topology links)
    (hs : topology.scope? i = some scope) (ho : topology.scope? j = some other)
    {elements' node : NodeId}
    (he : doc.prop? (carrier definition i scope.select) "elements" = some elements)
    (he' : doc.prop? (carrier definition j other.select) "elements" = some elements')
    (hw : doc.Within elements node) (hw' : doc.Within elements' node) : i = j := by
  have hc := (container?_of_prop? he).1
  have hc' := (container?_of_prop? he').1
  by_cases heq : elements = elements'
  · subst heq
    exact hb.carrier_inj hs ho (Option.some.inj (hc.symm.trans hc'))
  · rcases within_total hw hw' with hin | hin
    · exact absurd (hin.container heq hc') (hb.not_within_elements hs ho he)
    · exact absurd (hin.container (Ne.symm heq) hc) (hb.not_within_elements ho hs he')

end Carriers

/-! ## The links of a scope -/

section ScopeLinks

variable {index : Nat} {select : NodeId} {own own' : List TopologyLink}

/-- A scope with columns and with results of its own links its columns with these. Without tolerance
it has at least as many columns as results, if all columns are named or placed. -/
theorem LinksColumns.walk (h : doc.LinksColumns options definition index select own)
    {columns elements : NodeId} (hcolumns : doc.prop? select "columns" = some columns)
    (helements : doc.prop? (carrier definition index select) "elements" = some elements) :
    ∃ walk, doc.linkColumns options elements "" (index + 1) columns = .ok walk ∧ walk.links = own ∧
      (options.toleratePartial = false →
        (∀ item ∈ doc.itemsAt columns, doc.isWildcard item = false ∧
          doc.hasProp item "inline" = false) →
        (doc.entries elements).length ≤ walk.linked) := by
  obtain ⟨scope, hbasis, hlinks⟩ := h
  obtain ⟨hnumber, hselect, howner⟩ := QueryScope.basis_eq_iff.mp hbasis
  have hd : doc.declaring? (carrier definition index select) =
      some (carrier definition index select) :=
    declaring?_eq_some_iff.mpr ⟨rfl, by rw [hasProp, helements]; rfl⟩
  have hresult : scope.elements? doc = some elements := by
    rw [QueryScope.elements?, howner, hd]
    exact helements
  rw [scopeLinks, hselect, hcolumns, hresult, hnumber] at hlinks
  cases hwalk : doc.linkColumns options elements "" (index + 1) columns with
  | error e =>
    simp only [hwalk] at hlinks
    cases hlinks
  | ok walk =>
    simp only [hwalk, bind, Except.bind] at hlinks
    split at hlinks
    · cases hlinks
    · next hcount =>
      cases hlinks
      refine ⟨walk, rfl, rfl, fun hstrict hplain => ?_⟩
      simp only [hstrict, Bool.not_false, Bool.and_true, Bool.and_eq_true, Bool.not_eq_true',
        List.any_eq_false, Bool.or_eq_true, decide_eq_true_eq, not_and, Nat.not_lt] at hcount
      exact hcount fun item hitem => by simp [hplain item hitem]

/-- A scope that links columns has columns, and results of its own. -/
theorem LinksColumns.exists_walk (h : doc.LinksColumns options definition index select own)
    {link : TopologyLink} (hl : link ∈ own) :
    ∃ columns elements walk, doc.prop? (carrier definition index select) "elements" =
      some elements ∧
      doc.linkColumns options elements "" (index + 1) columns = .ok walk ∧ walk.links = own := by
  obtain ⟨column, element, rfl⟩ : ∃ column element, link = .column column element := by
    obtain ⟨scope, _, hlinks⟩ := h
    obtain ⟨column, element, heq, _⟩ := (columns_of_scopeLinks hlinks).1 link hl
    exact ⟨column, element, heq⟩
  obtain ⟨columns, hcolumns, _⟩ := h.isColumn hl
  cases hd : doc.declaring? (carrier definition index select) with
  | none =>
    rw [h.eq_nil hd] at hl
    cases hl
  | some owner =>
    obtain ⟨_, hhas⟩ := declaring?_eq_some_iff.mp hd
    obtain ⟨elements, helements⟩ := Option.isSome_iff_exists.mp hhas
    obtain ⟨walk, hwalk, hwlinks, _⟩ := h.walk hcolumns helements
    exact ⟨columns, elements, walk, helements, hwalk, hwlinks⟩

theorem LinksColumns.unique (h : doc.LinksColumns options definition index select own)
    (h' : doc.LinksColumns options definition index select own') : own = own' := by
  obtain ⟨scope, hbasis, hlinks⟩ := h
  obtain ⟨scope', hbasis', hlinks'⟩ := h'
  obtain ⟨hnumber, hselect, howner⟩ := QueryScope.basis_eq_iff.mp hbasis
  obtain ⟨hnumber', hselect', howner'⟩ := QueryScope.basis_eq_iff.mp hbasis'
  have hsame : doc.scopeLinks options scope = doc.scopeLinks options scope' := by
    unfold scopeLinks QueryScope.elements?
    rw [hnumber, hselect, howner, hnumber', hselect', howner']
  exact Except.ok.inj (hlinks.symm.trans (hsame.trans hlinks'))

theorem LinksColumns.ascending (h : doc.LinksColumns options definition index select own) :
    own.Pairwise fun a b => a.fact.2 < b.fact.2 := by
  cases own with
  | nil => exact .nil
  | cons link rest =>
    obtain ⟨_, _, walk, _, hwalk, hlinks⟩ := h.exists_walk List.mem_cons_self
    exact hlinks ▸ (ascending_linkColumns hwalk).2

theorem LinksColumns.exists_elements (h : doc.LinksColumns options definition index select own)
    (hl : .column column element ∈ own) :
    ∃ elements, doc.prop? (carrier definition index select) "elements" = some elements ∧
      doc.Within elements element := by
  obtain ⟨_, elements, walk, helements, hwalk, rfl⟩ := h.exists_walk hl
  obtain ⟨_, _, heq, _, hw⟩ := (columnLinks_linkColumns hwalk).shape _ hl
  cases heq
  exact ⟨elements, helements, hw⟩

end ScopeLinks

/-! ## The columns of a member -/

/-- The columns that are linked with a result member, in the order of the links. -/
def columnsFor (element : NodeId) (links : List TopologyLink) : List NodeId :=
  links.filterMap (TopologyLink.columnFor? element)

theorem columnFor?_eq_some {link : TopologyLink} :
    link.columnFor? element = some column ↔ link = .column column element := by
  cases link with
  | parent => simp [TopologyLink.columnFor?]
  | column item target =>
    simp only [TopologyLink.columnFor?, Option.ite_none_right_eq_some, Option.some.injEq,
      TopologyLink.column.injEq]
    exact And.comm

theorem mem_columnsFor {links : List TopologyLink} :
    column ∈ columnsFor element links ↔ .column column element ∈ links := by
  simp only [columnsFor, List.mem_filterMap, columnFor?_eq_some, exists_eq_right]

theorem pairwise_columnsFor {links : List TopologyLink} {R : NodeId → NodeId → Prop}
    (element : NodeId) (h : links.Pairwise fun a b => a.fact.1 = b.fact.1 → R a.fact.2 b.fact.2) :
    (columnsFor element links).Pairwise R := by
  refine h.filterMap _ fun a b hab column hc column' hc' => ?_
  obtain rfl := columnFor?_eq_some.mp hc
  obtain rfl := columnFor?_eq_some.mp hc'
  exact hab rfl

section Topology

variable {topology : Topology} {links : List TopologyLink}

theorem exists_linksColumns (hb : doc.buildTopology options definition = .ok (topology, links))
    (hl : .column column element ∈ links) :
    ∃ i scope own, topology.scope? i = some scope ∧
    doc.LinksColumns options definition i scope.select own ∧
      .column column element ∈ own := by
  obtain ⟨new, hnew, _, hfrom⟩ := (drawnFrom_buildTopology hb).links
  have hnew : links = doc.memberLinks definition definition ++ new := hnew
  rcases List.mem_append.mp (hnew ▸ hl) with hl | hl
  · obtain ⟨_, _, heq, _⟩ := declares_of_mem_memberLinks hl
    cases heq
  · obtain ⟨i, scope, own, _, hs, hown, hmem⟩ := hfrom column element hl
    exact ⟨i, scope, own, hs, hown, hmem⟩

theorem exists_sublist_of_scope (hb : doc.buildTopology options definition = .ok (topology, links))
    {i : Nat} {scope : QueryScope} (hs : topology.scope? i = some scope) :
    ∃ own, doc.LinksColumns options definition i scope.select own ∧ own.Sublist links := by
  obtain ⟨new, hnew, hdraws, _⟩ := (drawnFrom_buildTopology hb).links
  obtain ⟨⟨own, hown, hsub⟩, _⟩ := hdraws i scope (Nat.zero_le i) hs
  have hnew : links = doc.memberLinks definition definition ++ new := hnew
  exact ⟨own, hown, hnew ▸ hsub.trans (List.sublist_append_right _ _)⟩

/-- All columns of a member belong to the scope whose results it is among. -/
theorem columnsFor_of_scope (hb : doc.buildTopology options definition = .ok (topology, links))
    {i : Nat} {scope : QueryScope} (hs : topology.scope? i = some scope) {own : List TopologyLink}
    (hown : doc.LinksColumns options definition i scope.select own)
    (helements : doc.prop? (carrier definition i scope.select) "elements" = some elements)
    (hw : doc.Within elements element) : columnsFor element links = columnsFor element own := by
  obtain ⟨own', hown', hsub⟩ := exists_sublist_of_scope hb hs
  obtain rfl := hown.unique hown'
  have hnodup : (columnsFor element links).Nodup := by
    refine pairwise_columnsFor element
      ((List.pairwise_map.mp (linked_buildTopology hb).once).imp ?_)
    exact fun hne hkey hnode => hne (Prod.ext hkey hnode)
  refine ((hsub.filterMap _).eq_of_length_le (hnodup.subperm fun column hc => ?_).length_le).symm
  obtain ⟨j, other, own', hs', hown', hmem⟩ := exists_linksColumns hb (mem_columnsFor.mp hc)
  obtain ⟨elements', helements', hw'⟩ := hown'.exists_elements hmem
  obtain rfl := (built_buildTopology hb).index_of_elements hs hs' helements helements' hw hw'
  cases hs.symm.trans hs'
  exact mem_columnsFor.mpr (hown'.unique hown ▸ hmem)

theorem ascending_columnsFor (hb : doc.buildTopology options definition = .ok (topology, links))
    (element : NodeId) : (columnsFor element links).Pairwise (· < ·) := by
  cases hcolumns : columnsFor element links with
  | nil => exact .nil
  | cons first rest =>
    have hfirst : first ∈ columnsFor element links := hcolumns ▸ List.mem_cons_self
    obtain ⟨i, scope, own, hs, hown, hmem⟩ := exists_linksColumns hb (mem_columnsFor.mp hfirst)
    obtain ⟨elements, helements, hw⟩ := hown.exists_elements hmem
    rw [← hcolumns, columnsFor_of_scope hb hs hown helements hw]
    refine pairwise_columnsFor element (hown.ascending.imp ?_)
    exact fun hlt _ => hlt

/-- The first column that is linked with a member is the least one. -/
theorem isLeast_of_findSome? (hb : doc.buildTopology options definition = .ok (topology, links))
    (hl : .column column element ∈ links) :
    ∃ first, links.findSome? (TopologyLink.columnFor? element) = some first ∧
      IsLeast {other | .column other element ∈ links} first := by
  have hasc := ascending_columnsFor hb element
  rw [← List.head?_filterMap]
  change ∃ first, (columnsFor element links).head? = some first ∧ _
  cases hcolumns : columnsFor element links with
  | nil =>
    have := mem_columnsFor.mpr hl
    rw [hcolumns] at this
    cases this
  | cons first rest =>
    rw [hcolumns] at hasc
    refine ⟨first, rfl, mem_columnsFor.mp (hcolumns ▸ List.mem_cons_self), fun other hother => ?_⟩
    rcases List.mem_cons.mp (hcolumns ▸ mem_columnsFor.mpr hother) with rfl | hrest
    · exact Nat.le_refl _
    · exact Nat.le_of_lt ((List.pairwise_cons.mp hasc).1 other hrest)

end Topology

end Document

namespace Model

open CacheM

variable {m : Model} {s : Cache} {column element node : NodeId}

/-! ## Asking for columns and members -/

/-- What a session answers about a node comes from the facts of the definition around it. -/
theorem exec_preparedFact (hs : Orderly m s) (key : FactKey) {definition : NodeId}
    {topology : Topology} {links : List TopologyLink} (ho : m.doc.owner? node = some definition)
    (hb : m.doc.buildTopology m.options definition = .ok (topology, links)) :
    ∃ t, m.HoldsFacts definition topology links t ∧
      (exec (m.preparedFact key node) s).1 = .ok (t.get? key node) := by
  have hown : exec (m.ownerOf node) s = (.ok definition, s) := by rw [exec_ownerOf, ho]
  rcases prepare_cases hs (Document.owner?_eq_some_iff.mp ho).1 with
    ⟨topology', links', t, hb', hex, ht, _, hget⟩ | ⟨e, hb', _⟩
  · cases hb.symm.trans hb'
    exact ⟨t, holdsFacts_of_orderly ht hb hget,
      by rw [preparedFact, exec_bind_ok hown, exec_bind_ok hex, exec_fact?]⟩
  · cases hb.symm.trans hb'

/-- A session knows facts only of nodes within definitions whose topology can be built. -/
theorem buildTopology_of_preparedFact (hs : Orderly m s) {key : FactKey} {value : Option key.Value}
    (h : (exec (m.preparedFact key node) s).1 = .ok value) :
    ∃ definition topology links, m.doc.owner? node = some definition ∧
      m.doc.buildTopology m.options definition = .ok (topology, links) := by
  cases ho : m.doc.owner? node with
  | none =>
    have hown : exec (m.ownerOf node) s = (.error (.assertion (.outsideDefinitions node)), s) := by
      rw [exec_ownerOf, ho]
    rw [preparedFact, exec_bind_error hown] at h
    cases h
  | some definition =>
    have hown : exec (m.ownerOf node) s = (.ok definition, s) := by rw [exec_ownerOf, ho]
    rcases prepare_cases hs (Document.owner?_eq_some_iff.mp ho).1 with ⟨topology, links, _, hb, _⟩
      | ⟨e, _, hex⟩
    · exact ⟨definition, topology, links, rfl, hb⟩
    · rw [preparedFact, exec_bind_ok hown, exec_bind_error hex] at h
      cases h

/-- A session knows a fact of a node exactly if it follows from the links of the definition around
the node. -/
theorem preparedFact_eq_iff (hs : Orderly m s) {key : FactKey} {value : Option key.Value}
    {P : List TopologyLink → Prop}
    (hP : ∀ {definition topology links t}, m.doc.owner? node = some definition →
      m.HoldsFacts definition topology links t → (t.get? key node = value ↔ P links)) :
    (exec (m.preparedFact key node) s).1 = .ok value ↔
      ∃ definition topology links, m.doc.owner? node = some definition ∧
        m.doc.buildTopology m.options definition = .ok (topology, links) ∧ P links := by
  constructor
  · intro h
    obtain ⟨definition, topology, links, ho, hb⟩ := buildTopology_of_preparedFact hs h
    obtain ⟨t, hfacts, heq⟩ := exec_preparedFact hs key ho hb
    exact ⟨definition, topology, links, ho, hb,
      (hP ho hfacts).mp (Except.ok.inj (heq.symm.trans h))⟩
  · rintro ⟨definition, topology, links, ho, hb, hlinks⟩
    obtain ⟨t, hfacts, heq⟩ := exec_preparedFact hs key ho hb
    rw [heq, (hP ho hfacts).mpr hlinks]

theorem columnElement_eq_some_iff (hs : Orderly m s) :
    (exec (m.columnElement column) s).1 = .ok (some element) ↔
      ∃ definition topology links, m.doc.owner? column = some definition ∧
        m.doc.buildTopology m.options definition = .ok (topology, links) ∧
        .column column element ∈ links :=
  preparedFact_eq_iff hs fun ho h => h.element column element ho

theorem elementColumn_eq_some_iff (hs : Orderly m s) :
    (exec (m.elementColumn element) s).1 = .ok (some column) ↔
      ∃ definition topology links, m.doc.owner? element = some definition ∧
        m.doc.buildTopology m.options definition = .ok (topology, links) ∧
        links.findSome? (TopologyLink.columnFor? element) = some column :=
  preparedFact_eq_iff hs fun ho h => by rw [h.column element ho]

theorem owner?_of_column {definition : NodeId} {topology : Topology} {links : List TopologyLink}
    (hd : m.doc.isDefinition definition = true)
    (hb : m.doc.buildTopology m.options definition = .ok (topology, links))
    (hl : .column column element ∈ links) :
    m.doc.owner? column = some definition ∧ m.doc.owner? element = some definition := by
  obtain ⟨hc, he⟩ := (Document.built_buildTopology hb).column_within hl
  exact ⟨owner?_of_within hd hc, owner?_of_within hd he⟩

/-- In every session, the column of a member yields that member, and it is the least of all columns
that do. -/
theorem columns_and_members_cross_linked {m : Model} {s : Cache} (hs : m.Reachable s)
    {column element : NodeId} :
    ((exec (m.elementColumn element) s).1 = .ok (some column) →
      (exec (m.columnElement column) s).1 = .ok (some element)) ∧
    ((exec (m.columnElement column) s).1 = .ok (some element) →
      ∃ first, (exec (m.elementColumn element) s).1 = .ok (some first) ∧
        IsLeast {other | (exec (m.columnElement other) s).1 = .ok (some element)} first) := by
  have horderly := (settled_of_reachable hs).agrees.orderly
  constructor
  · intro h
    obtain ⟨definition, topology, links, ho, hb, hfirst⟩ :=
      (elementColumn_eq_some_iff horderly).mp h
    obtain ⟨link, hl, hlink⟩ := List.exists_of_findSome?_eq_some hfirst
    obtain rfl := Document.columnFor?_eq_some.mp hlink
    have howner := (owner?_of_column (Document.owner?_eq_some_iff.mp ho).1 hb hl).1
    exact (columnElement_eq_some_iff horderly).mpr ⟨definition, topology, links, howner, hb, hl⟩
  · intro h
    obtain ⟨definition, topology, links, ho, hb, hl⟩ := (columnElement_eq_some_iff horderly).mp h
    have hd := (Document.owner?_eq_some_iff.mp ho).1
    have howner := (owner?_of_column hd hb hl).2
    obtain ⟨first, hfirst, hleast⟩ := Document.isLeast_of_findSome? hb hl
    refine ⟨first, (elementColumn_eq_some_iff horderly).mpr
      ⟨definition, topology, links, howner, hb, hfirst⟩, ?_⟩
    -- no column of another definition yields the member
    have hset : {other | (exec (m.columnElement other) s).1 = .ok (some element)} =
        {other | .column other element ∈ links} := by
      ext other
      refine (columnElement_eq_some_iff horderly).trans ⟨?_, fun hother => ?_⟩
      · rintro ⟨definition', topology', links', ho', hb', hl'⟩
        have howner' := (owner?_of_column (Document.owner?_eq_some_iff.mp ho').1 hb' hl').2
        cases howner.symm.trans howner'
        cases hb.symm.trans hb'
        exact hl'
      · exact ⟨definition, topology, links, (owner?_of_column hd hb hother).1, hb, hother⟩
    rw [hset]
    exact hleast

/-- A view with two elements, whose query has two columns of the same name. -/
def repeatModel : Model :=
  ⟨.ofDefinitions [
    ("E", .object [("elements", .object [("a", .object [])])]),
    ("V", .object [("elements", .object [("a", .object []), ("b", .object [])]),
      ("query", .object [("SELECT", .object [
        ("from", .object [("ref", .array [.string "E"])]),
        ("columns", .array [.object [("ref", .array [.string "a"])],
          .object [("ref", .array [.string "a"])]])])])])], {}⟩

/-- Both columns yield the first element, whose column is the first of them. -/
theorem repeated_columns_cross_linked :
    (exec (repeatModel.columnElement 18) Cache.empty).1 = .ok (some 7) ∧
      (exec (repeatModel.elementColumn 7) Cache.empty).1 = .ok (some 15) ∧
      (exec (repeatModel.columnElement 15) Cache.empty).1 = .ok (some 7) ∧
      IsLeast
        {other | (exec (repeatModel.columnElement other) Cache.empty).1 = .ok (some 7)} 15 := by
  have hcolumn : (exec (repeatModel.columnElement 18) Cache.empty).1 = .ok (some 7) :=
    eq_ok_of_toOption (by decide +kernel)
  have helement : (exec (repeatModel.elementColumn 7) Cache.empty).1 = .ok (some 15) :=
    eq_ok_of_toOption (by decide +kernel)
  obtain ⟨first, hfirst, hleast⟩ := (columns_and_members_cross_linked .new).2 hcolumn
  cases helement.symm.trans hfirst
  exact ⟨hcolumn, helement, (columns_and_members_cross_linked .new).1 helement, hleast⟩

end Model

end SchemaRefs
