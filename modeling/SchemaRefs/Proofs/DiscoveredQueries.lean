import SchemaRefs.Proofs.QueryNumbers

/-!
# Which queries are discovered

A query is numbered if the search for queries comes by. From a `SELECT` it goes through the tree of
its sources and through its expressions, and it stops at every query that it meets
(`Document.Outermost`); from a `SET` it goes to the arms. It does not look into the paths among the
sources, into mixins, or into the clauses of a `SET`. So it depends on the clause in which a query
stands whether it has a number (`Clause.isSearched`).

* `numbered_by_clause`: a query in a clause of a numbered query has a number exactly if the clause
  is searched, and all queries with numbers are the main query, arms of a `SET`, or stand in clauses
  that are searched;
* `filter_queries_without_number`: so there are queries without number in filters, in conditions of
  mixins and in the sort order of a union.
-/

namespace SchemaRefs

/-- The parts of a query in which other queries may stand. -/
inductive Clause where
  /-- The sources, apart from paths and conditions. -/
  | source
  /-- The condition of a join. -/
  | joinCondition
  /-- The columns, conditions, groups and sort orders of a `SELECT`. -/
  | expression
  /-- A path among the sources, with its filters and arguments. -/
  | sourcePath
  /-- A mixin, with its condition. -/
  | mixin
  /-- A property of a `SET` other than its arms. -/
  | setProperty
deriving Repr, DecidableEq

/-- The clause is searched for queries. -/
def Clause.isSearched : Clause → Bool
  | .source | .joinCondition | .expression => true
  | .sourcePath | .mixin | .setProperty => false

namespace Document

variable (doc : Document) {body item node query select source top : NodeId} {key : String}

/-! ## The clauses of a query -/

/-- The second node is the first query on a way down from the first node, by no property that starts
with `$`. -/
inductive Outermost : NodeId → NodeId → Prop where
  | here {query : NodeId} : doc.isQuery query = true → Outermost query query
  | item {expr item query : NodeId} : ¬ doc.isQuery expr = true → item ∈ doc.itemsAt expr →
      Outermost item query → Outermost expr query
  | property {expr child query : NodeId} {key : String} : ¬ doc.isQuery expr = true →
      (key, child) ∈ doc.entries expr → isDollarName key = false → Outermost child query →
      Outermost expr query

/-- The second node is the first one, or a source that it joins. -/
inductive Joins : NodeId → NodeId → Prop where
  | self {source : NodeId} : Joins source source
  | arg {source arg item : NodeId} : doc.refPath? source = none → doc.hasProp source "join" = true →
      arg ∈ doc.propItems source "args" → Joins arg item → Joins source item

/-- The node is a source of a `SELECT`, a join of several of them or a part of a join. -/
def IsSourceOf (select item : NodeId) : Prop :=
  ∃ source, doc.prop? select "from" = some source ∧ doc.Joins source item

/-- The node stands in a clause of the query of a scope. In clauses that are searched, it is a query
that stands in no other one there. The sources are paths, queries and joins of them; with any other
source, no topology is built. -/
inductive InClause (scope : QueryScope) : Clause → NodeId → Prop where
  | source {query : NodeId} : doc.IsSourceOf scope.select query → doc.refPath? query = none →
      doc.hasProp query "join" = false → doc.isQuery query = true → InClause scope .source query
  | joinCondition {item arg condition query : NodeId} : doc.IsSourceOf scope.select item →
      doc.refPath? item = none → doc.hasProp item "join" = true → arg ∈ doc.propItems item "args" →
      doc.prop? item "on" = some condition → doc.Outermost condition query →
      InClause scope .joinCondition query
  | expression {key : String} {expr query : NodeId} : isExpressionKey key = true →
      doc.prop? scope.select key = some expr → doc.Outermost expr query →
      InClause scope .expression query
  | sourcePath {item node : NodeId} : doc.IsSourceOf scope.select item →
      (doc.refPath? item).isSome = true → doc.Within item node → InClause scope .sourcePath node
  | mixin {member node : NodeId} : doc.IsMixin scope.select member → doc.Within member node →
      InClause scope .mixin node
  | setProperty {set body part node : NodeId} {key : String} : set ∈ scope.setNodes →
      doc.prop? set "SET" = some body → doc.prop? body key = some part → key ≠ "args" →
      doc.Within part node → InClause scope .setProperty node

variable {doc}

/-! ## Searching expressions and sources -/

/-- The search of an expression finds its outermost queries. -/
theorem mem_queriesBelow_iff {expr : NodeId} :
    query ∈ doc.queriesBelow expr ↔ doc.Outermost expr query := by
  constructor
  · intro h
    induction expr using queriesBelow.induct doc with
    | case1 expr hq =>
      rw [queriesBelow_of_isQuery hq] at h
      obtain rfl := List.mem_singleton.mp h
      exact .here hq
    | case2 expr hq items hv ih =>
      rw [queriesBelow_of_array hq hv] at h
      obtain ⟨item, hi, h⟩ := List.mem_flatMap.mp h
      exact .item hq (by simpa [itemsAt, hv] using hi) (ih item hi h)
    | case3 expr hq props hv ih =>
      rw [queriesBelow_of_object hq hv] at h
      obtain ⟨⟨key, child⟩, hi, h⟩ := List.mem_flatMap.mp h
      unfold queriesBelowProp at h
      split at h
      · cases h
      · next hkey =>
          exact .property hq (entries_of_object hv ▸ hi) (by simpa using hkey) (ih key child hi h)
    | case4 expr hq ha ho =>
      rw [queriesBelow_of_leaf hq ha ho] at h
      cases h
  · intro h
    induction h with
    | here hq => rw [queriesBelow_of_isQuery hq]; exact List.mem_singleton.mpr rfl
    | item hq hi _ ih =>
      rw [queriesBelow_of_array hq (value?_of_mem_itemsAt hi)]
      exact List.mem_flatMap.mpr ⟨_, hi, ih⟩
    | @property expr child query key hq hi hkey _ ih =>
      rw [queriesBelow_of_object hq (value?_of_mem_entries hi)]
      refine List.mem_flatMap.mpr ⟨(key, child), hi, ?_⟩
      rw [queriesBelowProp, if_neg (by rw [hkey]; exact Bool.false_ne_true)]
      exact ih

theorem Joins.within (h : doc.Joins source item) : doc.Within source item := by
  induction h with
  | self => exact .refl
  | arg _ _ ha _ ih => exact (within_of_mem_propItems ha).trans ih

theorem mem_sourceQueries_self (hr : doc.refPath? query = none)
    (hj : doc.hasProp query "join" = false) (hq : doc.isQuery query = true) :
    query ∈ doc.sourceQueries query := by
  rw [sourceQueries, sourceItems, hr]
  simp [hj, hq, leafQueries]

theorem isEmpty_of_mem_propItems {id : NodeId} (h : item ∈ doc.propItems id key) :
    ¬ (doc.propItems id key).isEmpty = true := by
  rw [List.isEmpty_iff]
  exact List.ne_nil_of_mem h

/-- A query that is visited for the sources is one of them, or stands in the condition of a join. -/
theorem source_of_mem_sourceQueries (h : query ∈ doc.sourceQueries source) :
    (doc.Joins source query ∧ doc.refPath? query = none ∧ doc.hasProp query "join" = false ∧
      doc.isQuery query = true) ∨
    ∃ item arg condition, doc.Joins source item ∧ doc.refPath? item = none ∧
      doc.hasProp item "join" = true ∧ arg ∈ doc.propItems item "args" ∧
      doc.prop? item "on" = some condition ∧ doc.Outermost condition query := by
  induction source using source_induction doc with
  | leaf source hleaf =>
    refine .inl ?_
    rw [sourceQueries, sourceItems] at h
    split at h
    · split at h <;> simp [leafQueries] at h
    · next hr =>
      split at h
      · next hj => rw [if_pos (hleaf hr hj)] at h; simp [leafQueries] at h
      · next hj =>
        split at h
        · next hq =>
          obtain rfl : query = source := by simpa [leafQueries] using h
          exact ⟨.self, hr, by simpa using hj, hq⟩
        · simp [leafQueries] at h
  | join source hr hj he ih =>
    rcases (mem_sourceQueries_of_join hr hj he).mp h with ⟨arg, ha, h⟩ | ⟨condition, hon, h⟩
    · rcases ih arg ha h with ⟨hjoins, hleaf⟩ | ⟨item, arg', condition, hjoins, hrest⟩
      · exact .inl ⟨.arg hr hj ha hjoins, hleaf⟩
      · exact .inr ⟨item, arg', condition, .arg hr hj ha hjoins, hrest⟩
    · obtain ⟨arg, ha⟩ := List.exists_mem_of_ne_nil _
        (List.isEmpty_eq_false_iff.mp (by simpa using he))
      exact .inr ⟨source, arg, condition, .self, hr, hj, ha, hon, mem_queriesBelow_iff.mp h⟩

theorem Joins.mem_sourceQueries (h : doc.Joins source item)
    (hq : query ∈ doc.sourceQueries item) : query ∈ doc.sourceQueries source := by
  induction h with
  | self => exact hq
  | arg hr hj ha _ ih =>
    exact (mem_sourceQueries_of_join hr hj (isEmpty_of_mem_propItems ha)).mpr (.inl ⟨_, ha, ih hq⟩)

/-- A part of the sources for which nothing is visited has nothing in common with the queries that
are visited. -/
theorem Joins.apart_of_nil (h : doc.Joins source item) (hnil : doc.sourceQueries item = [])
    (hq : query ∈ doc.sourceQueries source) : doc.Apart item query := by
  induction h with
  | self =>
    rw [hnil] at hq
    cases hq
  | @arg source arg item hnone hj ha hjoins ih =>
    obtain ⟨list, hlist, hitem⟩ := exists_list_of_mem_propItems ha
    rcases (mem_sourceQueries_of_join hnone hj (isEmpty_of_mem_propItems ha)).mp hq with
      ⟨other, ho, hq⟩ | ⟨condition, hon, hq⟩
    · by_cases hsame : arg = other
      · exact ih hnil (hsame ▸ hq)
      · have hother : other ∈ doc.itemsAt list := by simpa [propItems, hlist] using ho
        exact ((doc.pairwise_itemsAt list).forall hitem hother hsame).descend hjoins.within
          ((scattered_sourceQueries other).1 query hq)
    · have hin := (within_of_container? (container?_of_mem_itemsAt hitem).1).trans hjoins.within
      exact (apart_of_prop? hlist hon (by decide)).descend hin
        ((scattered_queriesBelow condition).1 query hq)

theorem sourceQueries_of_path (h : (doc.refPath? item).isSome = true) :
    doc.sourceQueries item = [] := by
  rw [sourceQueries, sourceItems]
  split
  · split <;> rfl
  · next hnone =>
    rw [hnone] at h
    cases h

/-! ## The clauses that are searched -/

section Clauses

variable {scope : QueryScope} {query : NodeId}

theorem fromQueries_of_prop? (hf : doc.prop? select "from" = some source) :
    doc.fromQueries select = doc.sourceQueries source := by
  rw [fromQueries, hf]
  rfl

/-- The queries that are visited from a `SELECT` are those in its clauses that are searched. -/
theorem mem_subqueries_iff :
    query ∈ doc.subqueries scope.select ↔
      ∃ clause : Clause, clause.isSearched = true ∧ doc.InClause scope clause query := by
  constructor
  · intro h
    rcases List.mem_append.mp h with h | h
    · cases hf : doc.prop? scope.select "from" with
      | none => simp [fromQueries, hf] at h
      | some source =>
        rw [fromQueries_of_prop? hf] at h
        rcases source_of_mem_sourceQueries h with ⟨hjoins, hr, hj, hq⟩ |
          ⟨item, arg, condition, hjoins, hr, hj, ha, hon, hout⟩
        · exact ⟨.source, rfl, .source ⟨source, hf, hjoins⟩ hr hj hq⟩
        · exact ⟨.joinCondition, rfl, .joinCondition ⟨source, hf, hjoins⟩ hr hj ha hon hout⟩
    · obtain ⟨⟨key, expr⟩, hp, hq⟩ := List.mem_flatMap.mp h
      obtain ⟨hentry, hkey⟩ := mem_expressionEntries hp
      exact ⟨.expression, rfl, .expression hkey (prop?_of_mem_entries hentry)
        (mem_queriesBelow_iff.mp hq)⟩
  · rintro ⟨clause, hclause, h⟩
    cases h with
    | source hsource hr hj hq =>
      obtain ⟨source, hf, hjoins⟩ := hsource
      refine List.mem_append_left _ ?_
      rw [fromQueries_of_prop? hf]
      exact hjoins.mem_sourceQueries (mem_sourceQueries_self hr hj hq)
    | joinCondition hsource hr hj ha hon hout =>
      obtain ⟨source, hf, hjoins⟩ := hsource
      refine List.mem_append_left _ ?_
      rw [fromQueries_of_prop? hf]
      refine hjoins.mem_sourceQueries
        ((mem_sourceQueries_of_join hr hj (isEmpty_of_mem_propItems ha)).mpr ?_)
      exact .inr ⟨_, hon, mem_queriesBelow_iff.mpr hout⟩
    | @expression key expr query hkey hexpr hout =>
      refine List.mem_append_right _ (List.mem_flatMap.mpr
        ⟨(key, expr), ?_, mem_queriesBelow_iff.mpr hout⟩)
      exact List.mem_filter.mpr ⟨mem_entries_of_prop? hexpr, hkey⟩
    | sourcePath | mixin | setProperty => cases hclause

end Clauses

/-! ## Trees of queries -/

section Trees

variable {definition : NodeId}

theorem exists_ownSelect?_of_mem_selectsBelow (h : select ∈ doc.selectsBelow top) :
    ∃ query, doc.QueryBelow top query ∧ doc.ownSelect? query = some select := by
  induction top using selectsBelow.induct doc with
  | case1 top ih =>
    rw [selectsBelow_eq] at h
    rcases List.mem_append.mp h with h | h
    · exact ⟨top, .refl, Option.mem_toList.mp h⟩
    · obtain ⟨inner, hi, h⟩ := List.mem_flatMap.mp h
      obtain ⟨query, hq, hsel⟩ := ih inner hi h
      exact ⟨query, .head hi hq, hsel⟩

theorem QueryBelow.mem_selectsBelow (h : doc.QueryBelow top query)
    (hsel : doc.ownSelect? query = some select) : select ∈ doc.selectsBelow top := by
  obtain ⟨before, after, heq, _⟩ := h.split
  rw [heq, selectsBelow_eq query, hsel]
  simp

theorem isQueryOf_of_mem_subqueries (hs : select ∈ doc.selectsOf definition)
    (hq : query ∈ doc.subqueries select) : doc.IsQueryOf definition query := by
  rcases List.mem_append.mp hs with hs | hs
  · refine ⟨query, ?_, .refl⟩
    rw [rootQueries, Option.mem_toList.mp hs]
    exact hq
  · obtain ⟨root, hroot, hs⟩ := List.mem_flatMap.mp hs
    obtain ⟨outer, houter, hsel⟩ := exists_ownSelect?_of_mem_selectsBelow hs
    obtain ⟨hset, hsel⟩ := prop?_of_ownSelect? hsel
    exact ⟨root, hroot, houter.tail (nestedQueries_of_select hset hsel ▸ hq)⟩

theorem IsQueryOf.mem_selectsOf (h : doc.IsQueryOf definition query)
    (hsel : doc.ownSelect? query = some select) : select ∈ doc.selectsOf definition := by
  obtain ⟨root, hroot, hq⟩ := h
  exact List.mem_append_right _ (List.mem_flatMap.mpr ⟨root, hroot, hq.mem_selectsBelow hsel⟩)

/-- Of several nodes that are apart, only one has a given node below it. -/
theorem eq_of_within_both {nodes : List NodeId} (hap : nodes.Pairwise doc.Apart) {a b : NodeId}
    (ha : a ∈ nodes) (hb : b ∈ nodes) (hna : doc.Within a node) (hnb : doc.Within b node) :
    a = b := by
  by_contra hne
  exact (hap.forall ha hb hne).not_within hna hnb

theorem QueryBelow.of_within {outer inner : NodeId} (ho : doc.QueryBelow top outer)
    (hi : doc.QueryBelow top inner) (hw : doc.Within outer inner) : doc.QueryBelow outer inner := by
  induction ho using Relation.ReflTransGen.head_induction_on with
  | refl => exact hi
  | @head top next hnext hrest ih =>
    rcases hi.cases_head with rfl | ⟨next', hnext', hi⟩
    · have hlt := (lt_of_mem_nestedQueries hnext).1
      exact absurd ((QueryBelow.within hrest).trans hw).le (Nat.not_le_of_lt hlt)
    · obtain rfl := eq_of_within_both (pairwise_apart_nestedQueries top) hnext hnext'
        ((QueryBelow.within hrest).trans hw) (QueryBelow.within hi)
      exact ih hi

theorem IsQueryOf.queryBelow {outer inner : NodeId} (ho : doc.IsQueryOf definition outer)
    (hi : doc.IsQueryOf definition inner) (hw : doc.Within outer inner) :
    doc.QueryBelow outer inner := by
  obtain ⟨root, hroot, ho⟩ := ho
  obtain ⟨root', hroot', hi⟩ := hi
  obtain rfl := eq_of_within_both (pairwise_apart_rootQueries definition) hroot hroot'
    (ho.within.trans hw) hi.within
  exact ho.of_within hi hw

/-- The body of a projection contains all other queries of a definition. -/
theorem IsQueryOf.within_projected (h : doc.IsQueryOf definition query)
    (hp : doc.projected? definition = some select) : doc.Within select query ∧ select ≠ query := by
  obtain ⟨root, hroot, hq⟩ := h
  rw [rootQueries, hp] at hroot
  obtain ⟨hw, hne⟩ := within_of_mem_subqueries hroot
  exact ⟨hw.trans hq.within, fun heq => hne (hw.antisymm (heq ▸ hq.within))⟩

/-- What stands for a query and lies strictly within the body of another one lies within a query
directly inside of it. -/
theorem IsQueryPart.nested (h : doc.IsQueryPart definition node)
    (hq : doc.IsQueryOf definition query) (hbody : doc.body? query = some body)
    (hw : doc.Within body node) (hne : body ≠ node) :
    ∃ inner ∈ doc.nestedQueries query, doc.Within inner node := by
  obtain ⟨key, _, hkey⟩ := prop?_of_body? hbody
  have hqn : doc.Within query node := (within_of_container? (container?_of_prop? hkey).1).trans hw
  have hlt : query < node := Nat.lt_of_lt_of_le (prop?_lt hkey).1 hw.le
  rcases h with hp | ⟨other, ho, hpart⟩
  · exact absurd (hq.within_projected hp).1.le (Nat.not_le_of_lt hlt)
  · have hon : doc.Within other node := by
      rcases hpart with rfl | hb
      · exact .refl
      · obtain ⟨key', _, hkey'⟩ := prop?_of_body? hb
        exact within_of_container? (container?_of_prop? hkey').1
    by_cases heq : query = other
    · subst heq
      rcases hpart with rfl | hb
      · exact absurd hlt (Nat.lt_irrefl _)
      · exact absurd (Option.some.inj (hbody.symm.trans hb)) hne
    · rcases within_total hqn hon with hin | hin
      · obtain ⟨inner, hinner, hbelow⟩ := (hq.queryBelow ho hin).cases_head.resolve_left heq
        exact ⟨inner, hinner, (QueryBelow.within hbelow).trans hon⟩
      · -- a query around the given one comes before it, and so does its body
        obtain ⟨inner, hinner, hbelow⟩ :=
          (ho.queryBelow hq hin).cases_head.resolve_left (Ne.symm heq)
        rcases hpart with rfl | hb
        · exact absurd hin.le (Nat.not_le_of_lt hlt)
        · obtain ⟨body', hb', _, hbi⟩ := exists_body?_of_mem_nestedQueries hinner
          obtain rfl : body' = node := Option.some.inj (hb'.symm.trans hb)
          exact absurd (QueryBelow.within hbelow).le (Nat.not_le_of_lt (Nat.lt_trans hlt hbi))

end Trees

/-! ## Clauses that are not searched -/

section Unsearched

variable {definition : NodeId} {topology : Topology} {links : List TopologyLink} {i : Nat}
  {scope : QueryScope}

/-- What has a number and lies strictly within a `SELECT` lies within a query that is visited from
there. -/
theorem Built.exists_subquery (hb : doc.Built definition topology links)
    (hs : topology.scope? i = some scope) {j : Nat} (hn : topology.queryOf? node = some j)
    (hw : doc.Within scope.select node) (hne : scope.select ≠ node) :
    ∃ query ∈ doc.subqueries scope.select, doc.Within query node := by
  have hshape : scope.shape ∈ topology.skeleton.shapes :=
    List.mem_of_getElem? (by rw [getElem?_shapes, hs]; rfl)
  rcases hb.sound.cover _ hshape node j (hb.queryOf?_eq_some_iff.mp hn) hw with heq | hsub
  · exact absurd heq.symm hne
  · exact hsub

theorem Built.queryOf?_of_unsearched (hb : doc.Built definition topology links)
    (hs : topology.scope? i = some scope) {prop : NodeId}
    (hkey : isSearchedKey key = false) (hp : doc.prop? scope.select key = some prop)
    (hw : doc.Within prop node) : topology.queryOf? node = none := by
  refine Option.eq_none_iff_forall_ne_some.mpr fun j hj => ?_
  have hlt : scope.select < node := Nat.lt_of_lt_of_le (prop?_lt hp).1 hw.le
  obtain ⟨query, hq, hqw⟩ := hb.exists_subquery hs hj
    ((within_of_container? (container?_of_prop? hp).1).trans hw) (Nat.ne_of_lt hlt)
  obtain ⟨key', prop', hkey', hp', hw'⟩ := exists_prop?_of_mem_subqueries hq
  obtain ⟨rfl, _⟩ := prop?_unique hp hp' hw (hw'.trans hqw)
  rw [hkey] at hkey'
  cases hkey'

/-- Within a part of the sources for which nothing is visited, nothing has a number. -/
theorem Built.queryOf?_of_nil (hb : doc.Built definition topology links)
    (hs : topology.scope? i = some scope) (hitem : doc.IsSourceOf scope.select item)
    (hnil : doc.sourceQueries item = []) (hw : doc.Within item node) :
    topology.queryOf? node = none := by
  refine Option.eq_none_iff_forall_ne_some.mpr fun j hj => ?_
  obtain ⟨source, hf, hjoins⟩ := hitem
  have hin : doc.Within source node := hjoins.within.trans hw
  have hlt : scope.select < node := Nat.lt_of_lt_of_le (prop?_lt hf).1 hin.le
  obtain ⟨query, hq, hqw⟩ := hb.exists_subquery hs hj
    ((within_of_container? (container?_of_prop? hf).1).trans hin) (Nat.ne_of_lt hlt)
  rcases List.mem_append.mp hq with hq | hq
  · rw [fromQueries_of_prop? hf] at hq
    exact (hjoins.apart_of_nil hnil hq).not_within hw hqw
  · obtain ⟨⟨key, expr⟩, hp, hq⟩ := List.mem_flatMap.mp hq
    obtain ⟨hentry, hkey⟩ := mem_expressionEntries hp
    obtain ⟨rfl, _⟩ := prop?_unique hf (prop?_of_mem_entries hentry) hin
      (((scattered_queriesBelow expr).1 query hq).trans hqw)
    exact absurd hkey (show ¬ isExpressionKey "from" = true by decide)

theorem scope_of_mem_selectsOf
    (hb : doc.Enumerates definition ⟨topology.queries, topology.queryTable, links⟩)
    (h : select ∈ doc.selectsOf definition) :
    ∃ i scope, topology.scope? i = some scope ∧ scope.select = select := by
  rw [← hb.selects] at h
  obtain ⟨scope, hscope, hsel⟩ := List.mem_map.mp h
  obtain ⟨i, hi⟩ := List.getElem?_of_mem hscope
  exact ⟨i, scope, hi, hsel⟩

theorem select_mem_selectsOf
    (hb : doc.Enumerates definition ⟨topology.queries, topology.queryTable, links⟩)
    (hs : topology.scope? i = some scope) : scope.select ∈ doc.selectsOf definition := by
  rw [← hb.selects]
  exact List.mem_map.mpr ⟨scope, List.mem_of_getElem? hs, rfl⟩

/-- Below a property of the body of a `SET` other than its arms, nothing has a number. -/
theorem Built.queryOf?_of_setBody (hb : doc.Built definition topology links)
    (he : doc.Enumerates definition ⟨topology.queries, topology.queryTable, links⟩)
    {set part : NodeId} (hset : doc.IsQueryOf definition set)
    (hbody : doc.prop? set "SET" = some body) (hkey : key ≠ "args")
    (hp : doc.prop? body key = some part) (hw : doc.Within part node) :
    topology.queryOf? node = none := by
  refine Option.eq_none_iff_forall_ne_some.mpr fun j hj => ?_
  have hlt : body < node := Nat.lt_of_lt_of_le (prop?_lt hp).1 hw.le
  obtain ⟨arm, harm, hin⟩ := (he.known node j (hb.queryOf?_eq_some_iff.mp hj)).nested hset
    (by rw [body?, hbody]; rfl) ((within_of_container? (container?_of_prop? hp).1).trans hw)
    (Nat.ne_of_lt hlt)
  rw [nestedQueries_of_set hbody] at harm
  obtain ⟨list, hlist, hitem⟩ := exists_list_of_mem_propItems harm
  exact hkey (prop?_unique hp hlist hw
    ((within_of_container? (container?_of_mem_itemsAt hitem).1).trans hin)).1

/-- The `SET`s that share a scope are queries of the definition. -/
theorem Built.isQueryOf_of_mem_setNodes (hb : doc.Built definition topology links)
    (he : doc.Enumerates definition ⟨topology.queries, topology.queryTable, links⟩)
    (hs : topology.scope? i = some scope) {set : NodeId} (hset : set ∈ scope.setNodes)
    (hbody : doc.prop? set "SET" = some body) : doc.IsQueryOf definition set := by
  obtain ⟨hnumber, hnumber'⟩ := (hb.complete i scope hs).sets set hset
  have hsome := hb.queryOf?_eq_some_iff.mpr (hnumber' body hbody)
  -- nothing below a property `SET` of the body of a query has a number
  have hselect : set ∉ doc.selectsOf definition := by
    intro hsel
    obtain ⟨j, other, hother, rfl⟩ := scope_of_mem_selectsOf he hsel
    rw [hb.queryOf?_of_unsearched hother (by decide) hbody .refl] at hsome
    cases hsome
  rcases he.known set i hnumber with hp | ⟨query, hq, rfl | hpart⟩
  · exact absurd (List.mem_append_left _ (Option.mem_toList.mpr hp)) hselect
  · exact hq
  · cases hqset : doc.prop? query "SET" with
    | some outer =>
      rw [body?, hqset] at hpart
      obtain rfl : outer = set := Option.some.inj hpart
      rw [hb.queryOf?_of_setBody he hq hqset (by decide) hbody .refl] at hsome
      cases hsome
    | none =>
      rw [body?, hqset] at hpart
      exact absurd (hq.mem_selectsOf (ownSelect?_of_select hqset hpart)) hselect

end Unsearched

theorem IsSourceOf.within (h : doc.IsSourceOf select item) : doc.Within select item := by
  obtain ⟨source, hf, hjoins⟩ := h
  exact (within_of_container? (container?_of_prop? hf).1).trans hjoins.within

/-- All clauses of all queries lie within the definition. -/
theorem Built.within_of_inClause {definition : NodeId} {topology : Topology}
    {links : List TopologyLink} {i : Nat} {scope : QueryScope}
    (hb : doc.Built definition topology links) (hs : topology.scope? i = some scope)
    {clause : Clause} (h : doc.InClause scope clause node) : doc.Within definition node := by
  have hselect := (hb.within_of_mem (hb.mem_of_scope hs).2).1
  cases hclause : clause.isSearched with
  | true =>
    exact hselect.trans (within_of_mem_subqueries (mem_subqueries_iff.mpr ⟨clause, hclause, h⟩)).1
  | false =>
    cases h with
    | source | joinCondition | expression => cases hclause
    | sourcePath hitem _ hw => exact hselect.trans (hitem.within.trans hw)
    | mixin hmixin hw => exact hselect.trans (hmixin.within.1.trans hw)
    | setProperty hset hbody hpart _ hw =>
      have hin := (hb.within_of_mem (((hb.complete i scope hs).sets _ hset).2 _ hbody)).1
      exact hin.trans ((within_of_container? (container?_of_prop? hpart).1).trans hw)

end Document

namespace Model

open CacheM

variable {m : Model} {s : Cache} {definition : NodeId} {topology : Topology}
  {links : List TopologyLink} {i : Nat} {scope : QueryScope} {node : NodeId}

/-- A query in a clause of a scope has a number exactly if the clause is searched. -/
theorem isSome_queryOf?_of_inClause
    (hb : m.doc.buildTopology m.options definition = .ok (topology, links))
    (hs : topology.scope? i = some scope) {clause : Clause} (h : m.doc.InClause scope clause node) :
    (topology.queryOf? node).isSome = clause.isSearched := by
  have hbuilt := Document.built_buildTopology hb
  have henum := Document.enumerates_buildTopology hb
  cases hclause : clause.isSearched with
  | true =>
    have hsub := Document.mem_subqueries_iff.mpr ⟨clause, hclause, h⟩
    exact (isSome_queryOf?_iff hb).mpr (.inr ⟨node,
      Document.isQueryOf_of_mem_subqueries (Document.select_mem_selectsOf henum hs) hsub, .inl rfl⟩)
  | false =>
    rw [Option.isSome_eq_false_iff, Option.isNone_iff_eq_none]
    cases h with
    | source | joinCondition | expression => cases hclause
    | sourcePath hitem hr hw =>
      exact hbuilt.queryOf?_of_nil hs hitem (Document.sourceQueries_of_path hr) hw
    | mixin hmixin hw =>
      obtain ⟨mixins, name, hm, hmem⟩ := hmixin
      exact hbuilt.queryOf?_of_unsearched hs (by decide) hm
        ((Document.within_of_container? (Document.container?_of_mem_entries hmem).1).trans hw)
    | setProperty hset hbody hpart hkey hw =>
      exact hbuilt.queryOf?_of_setBody henum (hbuilt.isQueryOf_of_mem_setNodes henum hs hset hbody)
        hbody hkey hpart hw

theorem exists_clause_of_mem_subqueries
    (he : m.doc.Enumerates definition ⟨topology.queries, topology.queryTable, links⟩)
    {select : NodeId} (hs : select ∈ m.doc.selectsOf definition)
    (hn : node ∈ m.doc.subqueries select) :
    ∃ i scope clause, topology.scope? i = some scope ∧ clause.isSearched = true ∧
      m.doc.InClause scope clause node := by
  obtain ⟨i, scope, hi, rfl⟩ := Document.scope_of_mem_selectsOf he hs
  obtain ⟨clause, hclause, hin⟩ := Document.mem_subqueries_iff.mp hn
  exact ⟨i, scope, clause, hi, hclause, hin⟩

variable (m definition topology) in
/-- The ways to get a number: as main query, as body or arm of a query with a number, or by standing
in a clause that is searched. -/
def FoundBySearch (node : NodeId) : Prop :=
  m.doc.query? definition = some node ∨
    (∃ query body, (topology.queryOf? query).isSome = true ∧ m.doc.body? query = some body ∧
      (node = body ∨ m.doc.prop? query "SET" = some body ∧ node ∈ m.doc.propItems body "args")) ∨
    ∃ i scope clause, topology.scope? i = some scope ∧ clause.isSearched = true ∧
      m.doc.InClause scope clause node

theorem foundBySearch_of_isQueryOf
    (hb : m.doc.buildTopology m.options definition = .ok (topology, links))
    (h : m.doc.IsQueryOf definition node) : m.FoundBySearch definition topology node := by
  have henum := Document.enumerates_buildTopology hb
  obtain ⟨root, hroot, hbelow⟩ := h
  rcases hbelow.cases_tail with rfl | ⟨outer, houter, hnested⟩
  · unfold Document.rootQueries at hroot
    split at hroot
    · next select hp =>
      have hsel : select ∈ m.doc.selectsOf definition :=
        List.mem_append_left _ (Option.mem_toList.mpr hp)
      exact .inr (.inr (exists_clause_of_mem_subqueries henum hsel hroot))
    · exact .inl (Option.mem_toList.mp hroot)
  · have hq : m.doc.IsQueryOf definition outer := ⟨root, hroot, houter⟩
    cases hset : m.doc.prop? outer "SET" with
    | some body =>
      rw [Document.nestedQueries_of_set hset] at hnested
      have hsome := (isSome_queryOf?_iff hb).mpr (.inr ⟨outer, hq, .inl rfl⟩)
      exact .inr (.inl ⟨outer, body, hsome, by rw [Document.body?, hset]; rfl,
        .inr ⟨hset, hnested⟩⟩)
    | none =>
      cases hsel : m.doc.prop? outer "SELECT" with
      | none => simp [Document.nestedQueries, hset, hsel] at hnested
      | some select =>
        rw [Document.nestedQueries_of_select hset hsel] at hnested
        have hmem := hq.mem_selectsOf (Document.ownSelect?_of_select hset hsel)
        exact .inr (.inr (exists_clause_of_mem_subqueries henum hmem hnested))

/-- There is no other way to get a number. -/
theorem foundBySearch_of_queryOf?
    (hb : m.doc.buildTopology m.options definition = .ok (topology, links))
    (h : (topology.queryOf? node).isSome = true) : m.FoundBySearch definition topology node := by
  rcases (isSome_queryOf?_iff hb).mp h with hp | ⟨query, hq, rfl | hbody⟩
  · exact .inl (Option.filter_eq_some_iff.mp hp).1
  · exact foundBySearch_of_isQueryOf hb hq
  · have hsome := (isSome_queryOf?_iff hb).mpr (.inr ⟨query, hq, .inl rfl⟩)
    exact .inr (.inl ⟨query, node, hsome, hbody, .inl rfl⟩)

/-- In every session that has prepared a definition, a query in a clause of a numbered query has a
number exactly if the clause is searched. All other queries with a number are the main query, or
arms and bodies of queries. -/
theorem numbered_by_clause {m : Model} {s : Cache} {definition : NodeId} {topology : Topology}
    (hs : m.Reachable s) (hp : (exec (m.prepare definition) s).1 = .ok topology) :
    (∀ i scope clause node, topology.scope? i = some scope → m.doc.InClause scope clause node →
      ∃ number, (exec (m.queryNumber node) s).1 = .ok number ∧ number.isSome = clause.isSearched) ∧
    ∀ node number, m.doc.owner? node = some definition →
      (exec (m.queryNumber node) s).1 = .ok (some number) →
      m.FoundBySearch definition topology node := by
  have horderly := (settled_of_reachable hs).agrees.orderly
  obtain ⟨hd, links, hb⟩ := buildTopology_of_prepare horderly hp
  refine ⟨fun i scope clause node hscope hin => ?_, fun node number ho hn => ?_⟩
  · have ho := owner?_of_within hd ((Document.built_buildTopology hb).within_of_inClause hscope hin)
    refine ⟨_, exec_queryNumber horderly hb ho, ?_⟩
    rw [Option.isSome_map, isSome_queryOf?_of_inClause hb hscope hin]
  · rw [exec_queryNumber horderly hb ho] at hn
    refine foundBySearch_of_queryOf? hb ?_
    rw [← Option.isSome_map, Except.ok.inj hn]
    rfl

/-! ### A view with queries in many clauses -/

/-- A query over an entity `E`. -/
def entityQuery : Json :=
  .object [("SELECT", .object [("from", .object [("ref", .array [.string "E"])])])]

/-- A view whose query is a union of one query, with queries in a filter of the source, in the
condition of a mixin, in the condition of the query and in the sort order of the union. -/
def clausesModel : Model :=
  ⟨.ofDefinitions [
    ("E", .object []),
    ("V", .object [("query", .object [("SET", .object [
      ("args", .array [.object [("SELECT", .object [
        ("from", .object
          [("ref", .array [.object [("id", .string "E"), ("where", .array [entityQuery])]])]),
        ("mixin", .object [("m", .object [("on", .array [entityQuery])])]),
        ("where", .array [entityQuery])])]]),
      ("orderBy", .array [entityQuery])])])])], {}⟩

/-- The scope of the arm of the union. -/
def clausesScope : QueryScope :=
  { number := 1, node := 7, select := 8, setNodes := [4], aliases := [("E", .path 9)],
    mixins := [("m", 20)], elementsOwner := none, next := none }

def clausesTopology : Topology where
  definition := 3
  queries :=
    [clausesScope,
     { number := 2, node := 28, select := 29, aliases := [("E", .path 30)], elementsOwner := none,
       next := some 0 }]
  queryTable := [(5, 0), (4, 0), (29, 1), (28, 1), (8, 0), (7, 0)]

/-- The query in the condition has a number, and the one in the filter has none. -/
theorem numbered_by_clause_filter :
    (exec (clausesModel.prepare 3) Cache.empty).1 = .ok clausesTopology ∧
      clausesModel.doc.InClause clausesScope .expression 28 ∧
      (∃ number, (exec (clausesModel.queryNumber 28) Cache.empty).1 = .ok number ∧
        number.isSome = true) ∧
      clausesModel.doc.InClause clausesScope .sourcePath 14 ∧
      ∃ number, (exec (clausesModel.queryNumber 14) Cache.empty).1 = .ok number ∧
        number.isSome = false := by
  have hp : (exec (clausesModel.prepare 3) Cache.empty).1 = .ok clausesTopology :=
    eq_ok_of_toOption (by decide +kernel)
  have hwhere : clausesModel.doc.prop? 8 "where" = some 27 := by decide +kernel
  have hitem : 28 ∈ clausesModel.doc.itemsAt 27 := by decide +kernel
  have hin : clausesModel.doc.InClause clausesScope .expression 28 :=
    .expression rfl hwhere (.item (by decide +kernel) hitem (.here (by decide +kernel)))
  have hwithin : clausesModel.doc.Within 9 14 :=
    .step (show clausesModel.doc.container? 14 = some 13 by decide +kernel)
      (.step (show clausesModel.doc.container? 13 = some 11 by decide +kernel)
        (.step (show clausesModel.doc.container? 11 = some 10 by decide +kernel)
          (.step (show clausesModel.doc.container? 10 = some 9 by decide +kernel) .refl)))
  have hout : clausesModel.doc.InClause clausesScope .sourcePath 14 :=
    .sourcePath ⟨9, by decide +kernel, .self⟩ (by decide +kernel) hwithin
  obtain ⟨hclause, _⟩ := numbered_by_clause .new hp
  exact ⟨hp, hin, hclause 0 _ _ _ rfl hin, hout, hclause 0 _ _ _ rfl hout⟩

/-- The queries in the filter, in the condition of the mixin and in the sort order of the union have
no number. -/
theorem filter_queries_without_number :
    (exec (clausesModel.prepare 3) Cache.empty).1 = .ok clausesTopology ∧
      clausesTopology.queryOf? 4 = some 0 ∧ clausesTopology.queryOf? 8 = some 0 ∧
      ["definitions/V/query/SET/args/0/SELECT/from/ref/0/where/0",
        "definitions/V/query/SET/args/0/SELECT/mixin/m/on/0",
        "definitions/V/query/SET/orderBy/0"] = [14, 22, 34].map clausesModel.doc.pathText ∧
      ∀ query ∈ [14, 22, 34], clausesModel.doc.isQuery query = true ∧
        (exec (clausesModel.queryNumber query) Cache.empty).1.toOption = some none := by
  refine ⟨eq_ok_of_toOption ?_, ?_, ?_, ?_, ?_⟩ <;> decide +kernel

end Model

end SchemaRefs
