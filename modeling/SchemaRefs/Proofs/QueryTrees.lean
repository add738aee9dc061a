import Mathlib.Logic.Relation
import SchemaRefs.Proofs.Topologies

/-!
# The queries of a definition

The queries below a definition form trees: the queries directly inside a `SET` are its arms, those
directly inside a `SELECT` are its sub-queries (`Document.nestedQueries`). `Document.selectsBelow
query` lists the bodies of all `SELECT`s of a tree, a query before the queries inside of it and
these in order. The `SELECT`s of a query that is part of a tree stand together in the list of the
tree (`Document.QueryBelow.split`), and nothing else in that list lies within the query.
-/

namespace SchemaRefs.Document

variable (doc : Document) {body inner query select : NodeId}

/-! ## Trees of queries -/

/-- The body of a query: of its `SET`, or else of its `SELECT`. -/
def body? (query : NodeId) : Option NodeId :=
  doc.prop? query "SET" <|> doc.prop? query "SELECT"

/-- The body of the `SELECT` of a query that is no `SET`. -/
def ownSelect? (query : NodeId) : Option NodeId :=
  (doc.prop? query "SELECT").filter fun _ => !doc.hasProp query "SET"

/-- The queries directly inside a query, in order. -/
def nestedQueries (query : NodeId) : List NodeId :=
  match doc.prop? query "SET" with
  | some body => doc.propItems body "args"
  | none => ((doc.prop? query "SELECT").map doc.subqueries).getD []

/-- The second query is the first one, or a query inside of it. -/
def QueryBelow : NodeId → NodeId → Prop :=
  Relation.ReflTransGen fun query inner => inner ∈ doc.nestedQueries query

variable {doc}

theorem nestedQueries_of_set (h : doc.prop? query "SET" = some body) :
    doc.nestedQueries query = doc.propItems body "args" := by
  rw [nestedQueries, h]

theorem nestedQueries_of_select (hset : doc.prop? query "SET" = none)
    (h : doc.prop? query "SELECT" = some select) :
    doc.nestedQueries query = doc.subqueries select := by
  rw [nestedQueries, hset, h]
  rfl

/-- A query directly inside another one lies within its body. -/
theorem exists_body?_of_mem_nestedQueries (h : inner ∈ doc.nestedQueries query) :
    ∃ body, doc.body? query = some body ∧ doc.Within body inner ∧ body < inner := by
  unfold nestedQueries at h
  split at h
  · next body hset =>
    exact ⟨body, by rw [body?, hset]; rfl, within_of_mem_propItems h, (lt_of_mem_propItems h).1⟩
  · next hset =>
    cases hsel : doc.prop? query "SELECT" with
    | none =>
      rw [hsel] at h
      cases h
    | some select =>
      rw [hsel] at h
      obtain ⟨hw, hne⟩ := within_of_mem_subqueries h
      exact ⟨select, by rw [body?, hset, hsel]; rfl, hw, Nat.lt_of_le_of_ne hw.le hne⟩

theorem prop?_of_body? (h : doc.body? query = some body) :
    ∃ key, (key = "SET" ∨ key = "SELECT") ∧ doc.prop? query key = some body := by
  unfold body? at h
  cases hset : doc.prop? query "SET" with
  | some set =>
    rw [hset] at h
    exact ⟨"SET", .inl rfl, hset.trans h⟩
  | none =>
    rw [hset] at h
    exact ⟨"SELECT", .inr rfl, h⟩

theorem within_of_mem_nestedQueries (h : inner ∈ doc.nestedQueries query) :
    doc.Within query inner := by
  obtain ⟨body, hbody, hw, _⟩ := exists_body?_of_mem_nestedQueries h
  obtain ⟨key, _, hkey⟩ := prop?_of_body? hbody
  exact (within_of_container? (container?_of_prop? hkey).1).trans hw

theorem lt_of_mem_nestedQueries {query inner : Nat} (h : inner ∈ doc.nestedQueries query) :
    query < inner ∧ query < doc.size := by
  obtain ⟨body, hbody, _, hlt⟩ := exists_body?_of_mem_nestedQueries h
  obtain ⟨key, _, hkey⟩ := prop?_of_body? hbody
  obtain ⟨hq, hb⟩ := prop?_lt hkey
  exact ⟨Nat.lt_trans hq hlt, Nat.lt_trans hq hb⟩

theorem pairwise_apart_nestedQueries (query : NodeId) :
    (doc.nestedQueries query).Pairwise doc.Apart := by
  unfold nestedQueries
  split
  · next body hset =>
    unfold propItems
    split
    · exact doc.pairwise_itemsAt _
    · exact .nil
  · cases doc.prop? query "SELECT" with
    | none => exact .nil
    | some select => exact doc.pairwise_apart_subqueries select

theorem QueryBelow.within {top : NodeId} (h : doc.QueryBelow top query) :
    doc.Within top query := by
  induction h with
  | refl => exact .refl
  | tail _ hmem ih => exact ih.trans (within_of_mem_nestedQueries hmem)

/-! ## The `SELECT`s of a tree -/

variable (doc) in
/-- The bodies of the `SELECT`s of a query and of all queries inside of it, in order. -/
def selectsBelow (query : NodeId) : List NodeId :=
  (doc.ownSelect? query).toList ++
    (doc.nestedQueries query).attach.flatMap fun ⟨inner, _hi⟩ => selectsBelow inner
termination_by doc.size - query
decreasing_by
  have := lt_of_mem_nestedQueries _hi
  omega

theorem selectsBelow_eq (query : NodeId) :
    doc.selectsBelow query =
      (doc.ownSelect? query).toList ++ (doc.nestedQueries query).flatMap doc.selectsBelow := by
  rw [selectsBelow, List.flatMap_subtype (g := doc.selectsBelow) (fun _ _ => rfl),
    List.unattach_attach]

theorem prop?_of_ownSelect? (h : doc.ownSelect? query = some select) :
    doc.prop? query "SET" = none ∧ doc.prop? query "SELECT" = some select := by
  obtain ⟨hsel, hset⟩ := Option.filter_eq_some_iff.mp h
  refine ⟨?_, hsel⟩
  simpa [hasProp] using hset

theorem ownSelect?_of_set (h : doc.prop? query "SET" = some body) :
    doc.ownSelect? query = none := by
  simp [ownSelect?, hasProp, h]

theorem ownSelect?_of_select (hset : doc.prop? query "SET" = none)
    (h : doc.prop? query "SELECT" = some select) : doc.ownSelect? query = some select := by
  simp [ownSelect?, hasProp, hset, h]

theorem within_of_mem_selectsBelow (h : select ∈ doc.selectsBelow query) :
    doc.Within query select := by
  induction query using selectsBelow.induct doc with
  | case1 query ih =>
    rw [selectsBelow_eq] at h
    rcases List.mem_append.mp h with h | h
    · have hsel := (prop?_of_ownSelect? (Option.mem_toList.mp h)).2
      exact within_of_container? (container?_of_prop? hsel).1
    · obtain ⟨inner, hi, h⟩ := List.mem_flatMap.mp h
      exact (within_of_mem_nestedQueries hi).trans (ih inner hi h)

/-- No `SELECT` of a query lies within one of the queries directly inside of it. -/
theorem not_within_ownSelect? (hi : inner ∈ doc.nestedQueries query)
    (h : doc.ownSelect? query = some select) : ¬ doc.Within inner select := by
  obtain ⟨hset, hsel⟩ := prop?_of_ownSelect? h
  rw [nestedQueries_of_select hset hsel] at hi
  obtain ⟨hw, hne⟩ := within_of_mem_subqueries hi
  exact fun h => hne (hw.antisymm h)

theorem split_flatMap_selectsBelow {queries : List NodeId} (hap : queries.Pairwise doc.Apart)
    (hq : query ∈ queries) :
    ∃ before after, queries.flatMap doc.selectsBelow = before ++ doc.selectsBelow query ++ after ∧
      ∀ select ∈ before ++ after, ¬ doc.Within query select := by
  obtain ⟨xs, ys, rfl⟩ := List.append_of_mem hq
  refine ⟨xs.flatMap doc.selectsBelow, ys.flatMap doc.selectsBelow, by simp, fun select hs hw => ?_⟩
  obtain ⟨_, hys, hxs⟩ := List.pairwise_append.mp hap
  rcases List.mem_append.mp hs with hs | hs
  · obtain ⟨x, hx, hs⟩ := List.mem_flatMap.mp hs
    exact (hxs x hx query List.mem_cons_self).not_within (within_of_mem_selectsBelow hs) hw
  · obtain ⟨y, hy, hs⟩ := List.mem_flatMap.mp hs
    exact ((List.pairwise_cons.mp hys).1 y hy).not_within hw (within_of_mem_selectsBelow hs)

/-- The `SELECT`s of a query in a tree stand together, and no other `SELECT` lies within the
query. -/
theorem QueryBelow.split {top : NodeId} (h : doc.QueryBelow top query) :
    ∃ before after, doc.selectsBelow top = before ++ doc.selectsBelow query ++ after ∧
      ∀ select ∈ before ++ after, ¬ doc.Within query select := by
  induction h with
  | refl => exact ⟨[], [], by simp, by simp⟩
  | @tail query inner _ hi ih =>
    obtain ⟨before, after, heq, hout⟩ := ih
    obtain ⟨xs, ys, hflat, hother⟩ := split_flatMap_selectsBelow
      (pairwise_apart_nestedQueries query) hi
    refine ⟨before ++ (doc.ownSelect? query).toList ++ xs, ys ++ after, ?_, fun select hs hw => ?_⟩
    · rw [heq, selectsBelow_eq query, hflat]
      simp only [List.append_assoc]
    · have hquery : doc.Within query select := (within_of_mem_nestedQueries hi).trans hw
      simp only [List.mem_append, Option.mem_toList] at hs
      rcases hs with ((hs | hs) | hs) | hs | hs
      · exact hout select (List.mem_append_left _ hs) hquery
      · exact not_within_ownSelect? hi hs hw
      · exact hother select (List.mem_append_left _ hs) hw
      · exact hother select (List.mem_append_right _ hs) hw
      · exact hout select (List.mem_append_right _ hs) hquery

/-! ## All queries of a definition -/

variable (doc) in
/-- The body of a projection, which is a query without a node of its own. -/
def projected? (definition : NodeId) : Option NodeId :=
  (doc.query? definition).filter fun _ => doc.isProjection definition

variable (doc) in
/-- The outermost queries of a definition: its main query, or those directly inside its
projection. -/
def rootQueries (definition : NodeId) : List NodeId :=
  match doc.projected? definition with
  | some select => doc.subqueries select
  | none => (doc.query? definition).toList

variable (doc) in
/-- The node is one of the queries of a definition. -/
def IsQueryOf (definition query : NodeId) : Prop :=
  ∃ root ∈ doc.rootQueries definition, doc.QueryBelow root query

variable (doc) in
/-- The bodies of all `SELECT`s of a definition, in order. -/
def selectsOf (definition : NodeId) : List NodeId :=
  (doc.projected? definition).toList ++ (doc.rootQueries definition).flatMap doc.selectsBelow

section Roots

variable {definition main : NodeId}

theorem rootQueries_of_none (h : doc.query? definition = none) :
    doc.projected? definition = none ∧ doc.rootQueries definition = [] := by
  have hp : doc.projected? definition = none := by rw [projected?, h]; rfl
  exact ⟨hp, by rw [rootQueries, hp, h]; rfl⟩

theorem rootQueries_of_projection (h : doc.query? definition = some main)
    (hproj : doc.isProjection definition = true) :
    doc.projected? definition = some main ∧ doc.rootQueries definition = doc.subqueries main := by
  have hp : doc.projected? definition = some main := by simp [projected?, h, hproj]
  exact ⟨hp, by rw [rootQueries, hp]⟩

theorem rootQueries_of_query (h : doc.query? definition = some main)
    (hproj : ¬ doc.isProjection definition = true) :
    doc.projected? definition = none ∧ doc.rootQueries definition = [main] := by
  have hp : doc.projected? definition = none := by simp [projected?, h, hproj]
  exact ⟨hp, by rw [rootQueries, hp, h]; rfl⟩

end Roots

theorem pairwise_apart_rootQueries (definition : NodeId) :
    (doc.rootQueries definition).Pairwise doc.Apart := by
  unfold rootQueries
  split
  · exact doc.pairwise_apart_subqueries _
  · cases doc.query? definition with
    | none => exact .nil
    | some main => exact List.pairwise_singleton _ _

/-- The `SELECT`s of a query of a definition stand together, and no other one lies within the
query. -/
theorem IsQueryOf.split {definition : NodeId} (h : doc.IsQueryOf definition query) :
    ∃ before after, doc.selectsOf definition = before ++ doc.selectsBelow query ++ after ∧
      ∀ select ∈ before ++ after, ¬ doc.Within query select := by
  obtain ⟨root, hroot, hq⟩ := h
  obtain ⟨xs, ys, hflat, hother⟩ :=
    split_flatMap_selectsBelow (pairwise_apart_rootQueries definition) hroot
  obtain ⟨before, after, heq, hout⟩ := hq.split
  refine ⟨(doc.projected? definition).toList ++ xs ++ before, after ++ ys, ?_,
    fun select hs hw => ?_⟩
  · rw [selectsOf, hflat, heq]
    simp only [List.append_assoc]
  · have hin : doc.Within root select := hq.within.trans hw
    simp only [List.mem_append, Option.mem_toList] at hs
    rcases hs with ((hs | hs) | hs) | hs | hs
    · rw [rootQueries, hs] at hroot
      obtain ⟨hsub, hne⟩ := within_of_mem_subqueries hroot
      exact hne (hsub.antisymm hin)
    · exact hother select (List.mem_append_left _ hs) hin
    · exact hout select (List.mem_append_left _ hs) hw
    · exact hout select (List.mem_append_right _ hs) hw
    · exact hother select (List.mem_append_right _ hs) hin

end SchemaRefs.Document
