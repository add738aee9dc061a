import SchemaRefs.Proofs.QueryTrees
import SchemaRefs.Proofs.WellFormedTopologies

/-!
# The numbers of queries

A visit opens one scope for each `SELECT` of the visited query, in the order of
`Document.selectsBelow`, and gives every query and every body of a query a number
(`Document.Counted`). `Document.Pending` says what holds while several queries are visited one after
the other.
-/

namespace SchemaRefs

/-! ## Drafts that grow -/

namespace Draft

/-- The bodies of the `SELECT`s of all scopes. -/
def selects (draft : Draft) : List NodeId :=
  draft.queries.map QueryScope.select

/-- Numbers and scopes are never taken back. -/
structure Extends (before after : Draft) : Prop where
  table : ∀ q i, (q, i) ∈ before.queryTable → (q, i) ∈ after.queryTable
  scopes : ∀ (i : Nat) scope, before.queries[i]? = some scope →
    ∃ scope', after.queries[i]? = some scope' ∧ scope'.shape = scope.shape ∧
      ∀ set ∈ scope.setNodes, set ∈ scope'.setNodes

theorem extends_of_queries {before after : Draft} (hq : after.queries = before.queries)
    (ht : ∀ q i, (q, i) ∈ before.queryTable → (q, i) ∈ after.queryTable) : before.Extends after :=
  ⟨ht, fun _ scope h => ⟨scope, hq ▸ h, rfl, fun _ hs => hs⟩⟩

theorem Extends.refl (draft : Draft) : draft.Extends draft :=
  extends_of_queries rfl fun _ _ h => h

theorem Extends.trans {a b c : Draft} (h : a.Extends b) (h' : b.Extends c) : a.Extends c := by
  refine ⟨fun q i hq => h'.table q i (h.table q i hq), fun i scope hs => ?_⟩
  obtain ⟨scope', hs', hshape, hsets⟩ := h.scopes i scope hs
  obtain ⟨scope'', hs'', hshape', hsets'⟩ := h'.scopes i scope' hs'
  exact ⟨scope'', hs'', hshape'.trans hshape, fun set hset => hsets' set (hsets set hset)⟩

theorem extends_modifyScope (draft : Draft) (index : Nat) {f : QueryScope → QueryScope}
    (hf : ∀ scope, (f scope).shape = scope.shape)
    (hsets : ∀ scope : QueryScope, ∀ set ∈ scope.setNodes, set ∈ (f scope).setNodes) :
    draft.Extends (draft.modifyScope index f) := by
  refine ⟨fun _ _ h => h, fun i scope hs => ?_⟩
  rw [getElem?_modifyScope, hs]
  split
  · exact ⟨f scope, rfl, hf scope, hsets scope⟩
  · exact ⟨scope, rfl, rfl, fun _ h => h⟩

theorem selects_eq (draft : Draft) :
    draft.selects = draft.skeleton.shapes.map ScopeShape.select := by
  rw [selects, skeleton, List.map_map]
  rfl

theorem selects_modifyScope (draft : Draft) (index : Nat) {f : QueryScope → QueryScope}
    (hf : ∀ scope, (f scope).shape = scope.shape) :
    (draft.modifyScope index f).selects = draft.selects := by
  rw [selects_eq, selects_eq, skeleton_modifyScope draft index hf]

theorem extends_openScope (doc : Document) (definition node select : NodeId) (next : Option Nat)
    (isMain : Bool) (draft : Draft) :
    draft.Extends (doc.openScope definition node select next isMain draft) := by
  refine ⟨fun q i h => List.mem_cons_of_mem _ (List.mem_cons_of_mem _ h), fun i scope hs => ?_⟩
  exact ⟨scope, (List.getElem?_append_left (List.getElem?_eq_some_iff.mp hs).1).trans hs, rfl,
    fun _ h => h⟩

theorem selects_openScope (doc : Document) (definition node select : NodeId) (next : Option Nat)
    (isMain : Bool) (draft : Draft) :
    (doc.openScope definition node select next isMain draft).selects = draft.selects ++ [select] :=
  List.map_append

end Draft

namespace Document

variable {doc : Document} {visit : QueryVisit} {isMain : Bool} {after before draft : Draft}
  {i leading : Nat} {definition node query select set : NodeId} {next : Option Nat}
  {options : Options} {scope : QueryScope}

/-! ## What holds between the visits for a `SELECT` -/

/-- `I` holds between the visits for the query with an index, where its argument lists the
sub-queries that are still to be visited. -/
structure Carries (visit : QueryVisit) (index : Nat) (I : List NodeId → Draft → Prop) : Prop where
  query : ∀ query rest draft, I (query :: rest) draft →
    Builds (visit query (some index) false) draft fun _ after => I rest after
  scope : ∀ rest draft (f : QueryScope → QueryScope), (∀ scope, (f scope).shape = scope.shape) →
    (∀ scope, (f scope).setNodes = scope.setNodes) →
    (∀ scope, (f scope).elementsOwner = scope.elementsOwner) → I rest draft →
    I rest (draft.modifyScope index f)

/-- Besides, `I` holds whatever is linked. -/
structure CarriesLinks (visit : QueryVisit) (index : Nat) (I : List NodeId → Draft → Prop) : Prop
    extends Carries visit index I where
  links : ∀ rest draft links, I rest draft → I rest (draft.addLinks links)

section Carrying

variable {index : Nat} {I : List NodeId → Draft → Prop} {rest : List NodeId} {draft : Draft}

theorem Carries.visitNested (h : Carries visit index I) {expr : NodeId}
    (hI : I (doc.queriesBelow expr ++ rest) draft) :
    Builds (doc.visitNested visit index expr) draft fun _ after => I rest after := by
  refine Builds.forM (fun queries draft => I (queries ++ rest) draft)
    (fun query queries draft hI => ?_) _ _ hI
  exact Builds.bind (h.query query (queries ++ rest) draft hI) fun _ _ hI => Builds.pure hI

theorem Carries.visitSource (h : Carries visit index I) {leaf : SourceItem}
    (hI : I (doc.leafQueries leaf ++ rest) draft) :
    Builds (doc.visitSource visit index leaf) draft fun _ after => I rest after := by
  cases leaf with
  | path item name =>
    exact Builds.modify (h.scope rest draft _ (fun _ => rfl) (fun _ => rfl) (fun _ => rfl) hI)
  | query item =>
    refine Builds.bind (h.query item rest draft hI) fun sub after hI => ?_
    exact Builds.modify (h.scope rest after _ (fun _ => rfl) (fun _ => rfl) (fun _ => rfl) hI)
  | condition expr => exact h.visitNested hI
  | fault item fault => cases fault <;> exact Builds.throw _ _

theorem Carries.visitSources (h : Carries visit index I)
    (hI : I (doc.fromQueries select ++ rest) draft) :
    Builds (doc.visitSources visit index select) draft fun _ after => I rest after := by
  unfold Document.visitSources
  unfold fromQueries at hI
  cases hf : doc.prop? select "from" with
  | none =>
    rw [hf] at hI
    exact Builds.pure hI
  | some source =>
    rw [hf] at hI
    refine Builds.forM (fun items draft => I (items.flatMap doc.leafQueries ++ rest) draft)
      (fun leaf items draft hI => ?_) _ _ hI
    rw [List.flatMap_cons, List.append_assoc] at hI
    exact h.visitSource hI

theorem Carries.visitExpressions (h : Carries visit index I) (entries : List (String × NodeId))
    (hI : I (entries.flatMap fun prop => doc.queriesBelow prop.2) draft) :
    Builds (entries.forM fun (_, expr) => doc.visitNested visit index expr) draft
      fun _ after => I [] after := by
  refine Builds.forM
    (fun entries draft => I (entries.flatMap fun prop => doc.queriesBelow prop.2) draft)
    (fun entry entries draft hI => ?_) _ _ hI
  rw [List.flatMap_cons] at hI
  exact h.visitNested hI

theorem CarriesLinks.bindMixins (h : CarriesLinks visit index I) (select : NodeId)
    (hI : I rest draft) :
    Builds (doc.bindMixins index select) draft fun _ after => I rest after := by
  unfold Document.bindMixins
  split
  · refine Builds.forM (fun _ draft => I rest draft) (fun mixin _ draft hI => ?_) _ _ hI
    exact Builds.modify (h.scope rest _ _ (fun _ => rfl) (fun _ => rfl) (fun _ => rfl)
      (h.links rest draft _ hI))
  · exact Builds.pure hI

theorem CarriesLinks.linkScope (h : CarriesLinks visit index I) (options : Options)
    (hI : I rest draft) :
    Builds (doc.linkScope options index) draft fun _ after => I rest after := by
  refine Builds.get_bind ?_
  split
  · exact Builds.lift_bind fun links _ => Builds.modify (h.links rest draft links hI)
  · exact Builds.pure hI

theorem CarriesLinks.visitSelect (h : CarriesLinks visit before.queries.length I)
    (hI : I (doc.subqueries select) (doc.openScope definition node select next isMain before)) :
    Builds (doc.visitSelect options definition visit node select next isMain) before
      fun index after => index = before.queries.length ∧ I [] after := by
  refine Builds.get_bind (Builds.modify_bind ?_)
  refine Builds.bind (h.visitSources hI) fun _ _ hI => ?_
  refine Builds.bind (h.bindMixins select hI) fun _ _ hI => ?_
  refine Builds.bind (h.linkScope options hI) fun _ _ hI => ?_
  refine Builds.bind (h.visitExpressions _ hI) fun _ _ hI => ?_
  exact Builds.pure ⟨rfl, hI⟩

end Carrying

/-! ## Numbered queries -/

variable (doc) in
/-- A query and its body have the same number. A `SET` has that of its leading query, and shares its
scope. -/
def Numbered (draft : Draft) (query : NodeId) : Prop :=
  ∃ index, (query, index) ∈ draft.queryTable ∧
    (∀ body, doc.body? query = some body → (body, index) ∈ draft.queryTable) ∧
    ∀ body, doc.prop? query "SET" = some body →
      (∃ first arms, doc.propItems body "args" = first :: arms ∧
        (first, index) ∈ draft.queryTable) ∧
      ∃ scope, draft.queries[index]? = some scope ∧ query ∈ scope.setNodes

theorem Numbered.extend (h : doc.Numbered draft query)
    (he : draft.Extends after) : doc.Numbered after query := by
  obtain ⟨index, hq, hbody, hset⟩ := h
  refine ⟨index, he.table _ _ hq, fun body hb => he.table _ _ (hbody body hb), fun body hb => ?_⟩
  obtain ⟨⟨first, arms, hargs, hfirst⟩, scope, hs, hmem⟩ := hset body hb
  obtain ⟨scope', hs', _, hsets⟩ := he.scopes index scope hs
  exact ⟨⟨first, arms, hargs, he.table _ _ hfirst⟩, scope', hs', hsets query hmem⟩

variable (doc) in
/-- The node stands for the query of a scope. -/
def StandsFor (scope : QueryScope) (node : NodeId) : Prop :=
  node = scope.node ∨ node = scope.select ∨
    ∃ set ∈ scope.setNodes, node = set ∨ doc.prop? set "SET" = some node

variable (doc) in
/-- Every node with a number stands for the query of that scope. -/
def Accounted (draft : Draft) : Prop :=
  ∀ node i, (node, i) ∈ draft.queryTable → ∃ scope, draft.queries[i]? = some scope ∧
    doc.StandsFor scope node

theorem StandsFor.extend (he : before.Extends after)
    (hs : before.queries[i]? = some scope) (h : doc.StandsFor scope node) :
    ∃ scope', after.queries[i]? = some scope' ∧ doc.StandsFor scope' node := by
  obtain ⟨scope', hs', hshape, hsets⟩ := he.scopes i scope hs
  have hnode : scope'.node = scope.node := congrArg ScopeShape.node hshape
  have hselect : scope'.select = scope.select := congrArg ScopeShape.select hshape
  refine ⟨scope', hs', ?_⟩
  rcases h with h | h | ⟨set, hset, h⟩
  · exact .inl (h.trans hnode.symm)
  · exact .inr (.inl (h.trans hselect.symm))
  · exact .inr (.inr ⟨set, hsets set hset, h⟩)

theorem Accounted.extend (h : doc.Accounted before) (he : before.Extends after)
    (hnew : ∀ node i, (node, i) ∈ after.queryTable → (node, i) ∈ before.queryTable ∨
      ∃ scope, after.queries[i]? = some scope ∧ doc.StandsFor scope node) :
    doc.Accounted after := by
  intro node i hn
  rcases hnew node i hn with hold | hnew
  · obtain ⟨scope, hs, hfor⟩ := h node i hold
    exact hfor.extend he hs
  · exact hnew

variable (doc) in
/-- The node is a query of a tree, or the body of one. -/
def IsPart (top node : NodeId) : Prop :=
  ∃ query, doc.QueryBelow top query ∧ (node = query ∨ doc.body? query = some node)

theorem IsPart.up {top : NodeId} (hq : query ∈ doc.nestedQueries top)
    (h : doc.IsPart query node) : doc.IsPart top node := by
  obtain ⟨inner, hi, hn⟩ := h
  exact ⟨inner, .head hq hi, hn⟩

variable (doc) in
/-- What a visit of `top` leaves of a draft. -/
structure Counted (before : Draft) (top : NodeId) (index : Nat) (after : Draft) : Prop where
  extend : before.Extends after
  selects : after.selects = before.selects ++ doc.selectsBelow top
  numbered : ∀ query, doc.QueryBelow top query → doc.Numbered after query
  known : ∀ node i, (node, i) ∈ after.queryTable → (node, i) ∈ before.queryTable ∨
    doc.IsPart top node
  first : (top, index) ∈ after.queryTable ∧ ∃ scope, after.queries[index]? = some scope
  accounted : doc.Accounted before → doc.Accounted after

variable (doc) in
/-- Of the queries `all`, those in `rest` are still to be visited. -/
structure Pending (before : Draft) (all rest : List NodeId) (draft : Draft) : Prop where
  extend : before.Extends draft
  selects : draft.selects ++ rest.flatMap doc.selectsBelow =
    before.selects ++ all.flatMap doc.selectsBelow
  numbered : ∀ top ∈ all, top ∈ rest ∨ ∀ query, doc.QueryBelow top query → doc.Numbered draft query
  known : ∀ node i, (node, i) ∈ draft.queryTable →
    (node, i) ∈ before.queryTable ∨ ∃ top ∈ all, doc.IsPart top node
  subset : ∀ query ∈ rest, query ∈ all
  accounted : doc.Accounted before → doc.Accounted draft

theorem Pending.start (draft : Draft) (all : List NodeId) : doc.Pending draft all all draft :=
  ⟨.refl draft, rfl, fun _ h => .inl h, fun _ _ h => .inl h, fun _ h => h, fun h => h⟩

/-- Another query was visited. -/
theorem Pending.visited {all rest : List NodeId}
    {index : Nat} (h : doc.Pending before all (query :: rest) draft)
    (hc : doc.Counted draft query index after) : doc.Pending before all rest after := by
  have hquery : query ∈ all := h.subset query List.mem_cons_self
  refine ⟨h.extend.trans hc.extend, ?_, fun top ht => ?_, fun node i hn => ?_,
    fun q hq => h.subset q (List.mem_cons_of_mem _ hq), fun ha => hc.accounted (h.accounted ha)⟩
  · rw [← h.selects, hc.selects, List.flatMap_cons, List.append_assoc]
  · rcases h.numbered top ht with hmem | hdone
    · rcases List.mem_cons.mp hmem with rfl | hmem
      · exact .inr hc.numbered
      · exact .inl hmem
    · exact .inr fun q hq => (hdone q hq).extend hc.extend
  · rcases hc.known node i hn with hold | hpart
    · exact h.known node i hold
    · exact .inr ⟨query, hquery, hpart⟩

theorem Pending.keep {all rest : List NodeId}
    (h : doc.Pending before all rest draft) (he : draft.Extends after)
    (hs : after.selects = draft.selects) (ht : after.queryTable = draft.queryTable) :
    doc.Pending before all rest after := by
  refine ⟨h.extend.trans he, by rw [hs, h.selects], fun top hmem => ?_,
    fun node i hn => ?_, h.subset,
    fun ha => (h.accounted ha).extend he fun node i hn => .inl (ht ▸ hn)⟩
  · exact (h.numbered top hmem).imp_right fun hdone q hq => (hdone q hq).extend he
  · exact h.known node i (ht ▸ hn)

variable (doc) in
/-- All visits leave a draft as `Counted` says. -/
def VisitsCounted (visit : QueryVisit) : Prop :=
  ∀ before node next isMain, Builds (visit node next isMain) before fun index after =>
    doc.Counted before node index after

theorem VisitsCounted.carries (h : doc.VisitsCounted visit) (index : Nat) (before : Draft)
    (all : List NodeId) : CarriesLinks visit index (doc.Pending before all) where
  query query rest draft hI :=
    (h draft query (some index) false).mono fun _ _ hc => hI.visited hc
  scope rest draft f hshape hsets _ hI := by
    refine hI.keep (draft.extends_modifyScope index hshape fun scope set hset => ?_)
      (draft.selects_modifyScope index hshape) rfl
    rw [hsets]
    exact hset
  links rest draft links hI := hI.keep (Draft.extends_of_queries rfl fun _ _ h => h) rfl rfl

/-! ## Visits number all queries -/

theorem mem_assigned {table : List (NodeId × Nat)} {first second : NodeId} {index : Nat}
    (h : (node, i) ∈ (second, index) :: (first, index) :: table) :
    (node = second ∧ i = index) ∨ (node = first ∧ i = index) ∨ (node, i) ∈ table := by
  simpa only [List.mem_cons, Prod.mk.injEq] using h

theorem Accounted.openScope (h : doc.Accounted draft) (definition node select : NodeId)
    (next : Option Nat) (isMain : Bool) :
    doc.Accounted (doc.openScope definition node select next isMain draft) := by
  refine h.extend (draft.extends_openScope doc definition node select next isMain) fun n i hn => ?_
  rcases mem_assigned hn with ⟨rfl, rfl⟩ | ⟨rfl, rfl⟩ | hn
  · exact .inr ⟨_, List.getElem?_concat_length, .inr (.inl rfl)⟩
  · exact .inr ⟨_, List.getElem?_concat_length, .inl rfl⟩
  · exact .inl hn

/-- The sub-queries of a `SELECT` were visited. -/
theorem Pending.counted_select (hset : doc.prop? node "SET" = none)
    (hsel : doc.prop? node "SELECT" = some select)
    (h : doc.Pending (doc.openScope definition node select next isMain before)
      (doc.subqueries select) [] after) : doc.Counted before node before.queries.length after := by
  have hopened : (select, before.queries.length) ∈ after.queryTable ∧
      (node, before.queries.length) ∈ after.queryTable :=
    ⟨h.extend.table _ _ List.mem_cons_self,
      h.extend.table _ _ (List.mem_cons_of_mem _ List.mem_cons_self)⟩
  have hbody : doc.body? node = some select := by rw [body?, hset, hsel]; rfl
  have hnested := nestedQueries_of_select hset hsel
  refine ⟨(before.extends_openScope doc definition node select next isMain).trans h.extend, ?_,
    fun query hq => ?_, fun n i hn => ?_, ⟨hopened.2, ?_⟩, fun ha =>
      h.accounted (ha.openScope _ _ _ _ _)⟩
  · have hselects := h.selects
    rw [List.flatMap_nil, List.append_nil, Draft.selects_openScope, List.append_assoc] at hselects
    rw [hselects, selectsBelow_eq, ownSelect?_of_select hset hsel, hnested]
    rfl
  · rcases Relation.ReflTransGen.cases_head hq with rfl | ⟨inner, hi, hq⟩
    · refine ⟨_, hopened.2, fun body hb => ?_, fun body hb => ?_⟩
      · rw [hbody] at hb
        cases hb
        exact hopened.1
      · rw [hset] at hb
        cases hb
    · rcases h.numbered inner (hnested ▸ hi) with hmem | hdone
      · cases hmem
      · exact hdone query hq
  · rcases h.known n i hn with hold | ⟨inner, hi, hpart⟩
    · rcases mem_assigned hold with ⟨rfl, rfl⟩ | ⟨rfl, rfl⟩ | hold
      · exact .inr ⟨node, .refl, .inr hbody⟩
      · exact .inr ⟨n, .refl, .inl rfl⟩
      · exact .inl hold
    · exact .inr (hpart.up (hnested ▸ hi))
  · obtain ⟨scope, hs, _⟩ := h.extend.scopes before.queries.length _ List.getElem?_concat_length
    exact ⟨scope, hs⟩

/-- The draft in which a `SET` shares the scope of its leading query. -/
def shareScope (doc : Document) (node set : NodeId) (leading : Nat) (draft : Draft) : Draft :=
  ((draft.assign node leading).assign set leading).modifyScope leading fun scope =>
    inheritOwner (if doc.hasProp set "elements" then some set else none)
      { scope with setNodes := scope.setNodes ++ [node] }

theorem extends_shareScope (node set : NodeId) (leading : Nat) (draft : Draft) :
    draft.Extends (doc.shareScope node set leading draft) := by
  have hassign : draft.Extends ((draft.assign node leading).assign set leading) :=
    Draft.extends_of_queries rfl fun q i h => List.mem_cons_of_mem _ (List.mem_cons_of_mem _ h)
  exact hassign.trans (Draft.extends_modifyScope _ leading (fun _ => rfl)
    fun _ _ hs => List.mem_append_left _ hs)

variable (doc) in
theorem getElem?_shareScope (node set : NodeId) (hs : draft.queries[leading]? = some scope) :
    ∃ scope', (doc.shareScope node set leading draft).queries[leading]? = some scope' ∧
      node ∈ scope'.setNodes := by
  have hmid : ((draft.assign node leading).assign set leading).queries[leading]? = some scope := hs
  refine ⟨inheritOwner (if doc.hasProp set "elements" then some set else none)
    { scope with setNodes := scope.setNodes ++ [node] }, ?_, ?_⟩
  · rw [shareScope, Draft.getElem?_modifyScope, if_pos rfl, hmid]
    rfl
  · exact List.mem_append_right _ (List.mem_singleton.mpr rfl)

theorem Accounted.shareScope (h : doc.Accounted draft) (hset : doc.prop? node "SET" = some set)
    (hs : draft.queries[leading]? = some scope) :
    doc.Accounted (doc.shareScope node set leading draft) := by
  obtain ⟨scope', hs', hnode⟩ := getElem?_shareScope doc node set hs
  refine h.extend (extends_shareScope node set leading draft) fun n i hn => ?_
  rcases mem_assigned hn with ⟨rfl, rfl⟩ | ⟨rfl, rfl⟩ | hn
  · exact .inr ⟨scope', hs', .inr (.inr ⟨node, hnode, .inr hset⟩)⟩
  · exact .inr ⟨scope', hs', .inr (.inr ⟨n, hnode, .inl rfl⟩)⟩
  · exact .inl hn

/-- The arms of a `SET` were visited, the leading query first. -/
theorem Pending.counted_set {first : NodeId} {arms : List NodeId}
    {mid : Draft} (hset : doc.prop? node "SET" = some set)
    (hargs : doc.propItems set "args" = first :: arms) (hc : doc.Counted before first leading mid)
    (h : doc.Pending (doc.shareScope node set leading mid) arms [] after) :
    doc.Counted before node leading after := by
  have hnested : doc.nestedQueries node = first :: arms := (nestedQueries_of_set hset).trans hargs
  have hbody : doc.body? node = some set := by rw [body?, hset]; rfl
  have hextend : mid.Extends after := (extends_shareScope node set leading mid).trans h.extend
  obtain ⟨hfirst, scope, hscope⟩ := hc.first
  have hshared : (set, leading) ∈ after.queryTable ∧ (node, leading) ∈ after.queryTable :=
    ⟨h.extend.table _ _ List.mem_cons_self,
      h.extend.table _ _ (List.mem_cons_of_mem _ List.mem_cons_self)⟩
  have hnode : ∃ scope, after.queries[leading]? = some scope ∧ node ∈ scope.setNodes := by
    obtain ⟨shared, hget, hmem⟩ := getElem?_shareScope doc node set hscope
    obtain ⟨scope', hs', _, hsets⟩ := h.extend.scopes leading shared hget
    exact ⟨scope', hs', hsets node hmem⟩
  refine ⟨hc.extend.trans hextend, ?_, fun query hq => ?_, fun n i hn => ?_, ⟨hshared.2, ?_⟩,
    fun ha => h.accounted ((hc.accounted ha).shareScope hset hscope)⟩
  · have hselects := h.selects
    have hkeep : (doc.shareScope node set leading mid).selects = mid.selects :=
      Draft.selects_modifyScope _ leading fun _ => rfl
    rw [List.flatMap_nil, List.append_nil, hkeep, hc.selects] at hselects
    rw [hselects, selectsBelow_eq node, ownSelect?_of_set hset, hnested, List.flatMap_cons,
      List.append_assoc]
    rfl
  · rcases Relation.ReflTransGen.cases_head hq with rfl | ⟨inner, hi, hq⟩
    · refine ⟨leading, hshared.2, fun body hb => ?_, fun body hb => ?_⟩
      · rw [hbody] at hb
        cases hb
        exact hshared.1
      · rw [hset] at hb
        cases hb
        exact ⟨⟨first, arms, hargs, hextend.table _ _ hfirst⟩, hnode⟩
    · rw [hnested] at hi
      rcases List.mem_cons.mp hi with rfl | hi
      · exact (hc.numbered query hq).extend hextend
      · rcases h.numbered inner hi with hmem | hdone
        · cases hmem
        · exact hdone query hq
  · rcases h.known n i hn with hold | ⟨inner, hi, hpart⟩
    · rcases mem_assigned hold with ⟨rfl, rfl⟩ | ⟨rfl, rfl⟩ | hold
      · exact .inr ⟨node, .refl, .inr hbody⟩
      · exact .inr ⟨n, .refl, .inl rfl⟩
      · refine (hc.known n i hold).imp_right fun hpart => hpart.up ?_
        exact hnested ▸ List.mem_cons_self
    · exact .inr (hpart.up (hnested ▸ List.mem_cons_of_mem _ hi))
  · obtain ⟨scope, hs, _⟩ := hnode
    exact ⟨scope, hs⟩

theorem counted_visitSet (hvisit : doc.VisitsCounted visit)
    (hset : doc.prop? node "SET" = some set) :
    Builds (doc.visitSet visit node set next isMain) before fun index after =>
      doc.Counted before node index after := by
  unfold visitSet
  split
  · exact Builds.throw _ _
  · next first arms hargs =>
    refine Builds.bind (hvisit before first next isMain) fun leading mid hc => Builds.modify_bind ?_
    refine Builds.bind (Builds.forM (fun rest draft =>
      doc.Pending (doc.shareScope node set leading mid) arms rest draft)
        (fun arm rest draft h => ?_)
      arms _ (Pending.start _ arms)) fun _ after h => Builds.pure (h.counted_set hset hargs hc)
    refine Builds.bind (hvisit draft arm next false) fun i after hc => Builds.modify ?_
    exact (h.visited hc).keep (after.extends_modifyScope i (fun _ => rfl) fun _ _ hs => hs)
      (after.selects_modifyScope i fun _ => rfl) rfl

variable (doc) in
theorem visitsCounted_visitQuery (options : Options) (definition : NodeId) (depth : Nat) :
    doc.VisitsCounted (doc.visitQuery options definition depth) := by
  induction depth with
  | zero => exact fun _ _ _ _ => Builds.throw _ _
  | succ depth ih =>
    intro before node next isMain
    unfold visitQuery
    split
    · next set hset => exact counted_visitSet ih hset
    · next hset =>
      split
      · next select hsel =>
        refine ((ih.carries before.queries.length _ _).visitSelect (Pending.start _ _)).mono ?_
        rintro index after ⟨rfl, h⟩
        exact h.counted_select hset hsel
      · exact Builds.throw _ _

/-! ## The queries of a definition -/

variable (doc) in
/-- The node is a query of a definition or the body of one. -/
def IsQueryPart (definition node : NodeId) : Prop :=
  doc.projected? definition = some node ∨
    ∃ query, doc.IsQueryOf definition query ∧ (node = query ∨ doc.body? query = some node)

variable (doc) in
/-- The draft has a scope for each `SELECT` of a definition, and a number for each query. -/
structure Enumerates (definition : NodeId) (draft : Draft) : Prop where
  selects : draft.selects = doc.selectsOf definition
  numbered : ∀ query, doc.IsQueryOf definition query → doc.Numbered draft query
  projected : ∀ select, doc.projected? definition = some select →
    ∃ i, (select, i) ∈ draft.queryTable
  known : ∀ node i, (node, i) ∈ draft.queryTable → doc.IsQueryPart definition node
  accounted : doc.Accounted draft

/-- All outermost queries of a definition were visited. -/
theorem Pending.enumerates (h : doc.Pending before (doc.rootQueries definition) [] after)
    (hselects : before.selects = (doc.projected? definition).toList)
    (hprojected : ∀ select, doc.projected? definition = some select →
      ∃ i, (select, i) ∈ before.queryTable)
    (hknown : ∀ node i, (node, i) ∈ before.queryTable → doc.projected? definition = some node)
    (haccounted : doc.Accounted before) : doc.Enumerates definition after := by
  refine ⟨?_, fun query hq => ?_, fun select hs => ?_, fun node i hn => ?_, h.accounted haccounted⟩
  · have := h.selects
    rw [List.flatMap_nil, List.append_nil, hselects] at this
    exact this
  · obtain ⟨root, hroot, hq⟩ := hq
    rcases h.numbered root hroot with hmem | hdone
    · cases hmem
    · exact hdone query hq
  · obtain ⟨i, hi⟩ := hprojected select hs
    exact ⟨i, h.extend.table _ _ hi⟩
  · rcases h.known node i hn with hold | ⟨root, hroot, query, hq, hpart⟩
    · exact .inl (hknown node i hold)
    · exact .inr ⟨query, ⟨root, hroot, hq⟩, hpart⟩

/-- All outermost queries of a definition without projection were visited, from an empty draft
on. -/
theorem Pending.enumerates_queries {start : Draft}
    (h : doc.Pending start (doc.rootQueries definition) [] after)
    (hp : doc.projected? definition = none) (hq : start.queries = []) (ht : start.queryTable = []) :
    doc.Enumerates definition after := by
  have hempty : ∀ node i, (node, i) ∉ start.queryTable := by simp [ht]
  refine h.enumerates ?_ ?_ ?_ fun node i hn => absurd hn (hempty node i)
  · rw [Draft.selects, hq, hp]
    rfl
  · intro select hs
    rw [hp] at hs
    cases hs
  · exact fun node i hn => absurd hn (hempty node i)

/-- All queries inside a projection were visited, from a draft on that has the scope of the
projection. -/
theorem Pending.enumerates_projection {main : NodeId} {start : Draft}
    (hp : doc.projected? definition = some main)
    (h : doc.Pending (doc.openScope definition main main none true start)
      (doc.rootQueries definition) [] after) (hq : start.queries = [])
    (ht : start.queryTable = []) : doc.Enumerates definition after := by
  have hempty : ∀ node i, (node, i) ∉ start.queryTable := by simp [ht]
  have haccounted : doc.Accounted start := fun node i hn => absurd hn (hempty node i)
  refine h.enumerates ?_ ?_ ?_ (haccounted.openScope _ _ _ _ _)
  · rw [Draft.selects_openScope, Draft.selects, hq, hp]
    rfl
  · intro select hs
    rw [hp] at hs
    cases hs
    exact ⟨_, List.mem_cons_self⟩
  · intro node i hn
    rcases mem_assigned hn with ⟨rfl, _⟩ | ⟨rfl, _⟩ | hn
    · exact hp
    · exact hp
    · exact absurd hn (hempty node i)

theorem enumerates_visitMain {start : Draft}
    (hq : start.queries = []) (ht : start.queryTable = []) :
    Builds (doc.visitMain options definition) start fun _ after =>
      doc.Enumerates definition after := by
  have hvisit := visitsCounted_visitQuery doc options definition maxQueryNesting
  unfold visitMain
  cases hmain : doc.query? definition with
  | none =>
    obtain ⟨hp, hroots⟩ := rootQueries_of_none hmain
    have h : doc.Pending start (doc.rootQueries definition) [] start := by
      rw [hroots]
      exact Pending.start start []
    exact Builds.pure (h.enumerates_queries hp hq ht)
  | some main =>
    dsimp only
    split
    · next hproj =>
      obtain ⟨hp, hroots⟩ := rootQueries_of_projection hmain hproj
      refine Builds.bind ((hvisit.carries start.queries.length _ _).visitSelect
        (Pending.start _ _)) fun index after h => Builds.pure ?_
      exact Pending.enumerates_projection hp (hroots ▸ h.2) hq ht
    · next hproj =>
      obtain ⟨hp, hroots⟩ := rootQueries_of_query hmain hproj
      refine Builds.bind (hvisit start main none true) fun index after hc => Builds.pure ?_
      have h : doc.Pending start (doc.rootQueries definition) [] after :=
        hroots ▸ (Pending.start start [main]).visited hc
      exact h.enumerates_queries hp hq ht

/-- A topology that was built has a scope for each `SELECT` and a number for each query. -/
theorem enumerates_buildTopology {topology : Topology}
    {links : List TopologyLink} (h : doc.buildTopology options definition = .ok (topology, links)) :
    doc.Enumerates definition ⟨topology.queries, topology.queryTable, links⟩ :=
  enumerates_visitMain rfl rfl _ _ (run_visitMain_of_buildTopology h).2

/-! ## The order of numbers -/

/-- Of the `SELECT`s of a definition, those within a query are its own. -/
theorem IsQueryOf.mem_selectsBelow (h : doc.IsQueryOf definition query)
    (hs : select ∈ doc.selectsOf definition) (hw : doc.Within query select) :
    select ∈ doc.selectsBelow query := by
  obtain ⟨before, after, heq, hout⟩ := h.split
  rw [heq, List.append_assoc] at hs
  rcases List.mem_append.mp hs with hs | hs
  · exact absurd hw (hout select (List.mem_append_left _ hs))
  · rcases List.mem_append.mp hs with hs | hs
    · exact hs
    · exact absurd hw (hout select (List.mem_append_right _ hs))

theorem IsQueryOf.nested {inner : NodeId} (h : doc.IsQueryOf definition query)
    (hi : inner ∈ doc.nestedQueries query) : doc.IsQueryOf definition inner := by
  obtain ⟨root, hroot, hq⟩ := h
  exact ⟨root, hroot, hq.tail hi⟩

/-- In a list without repetitions, what is in the first part comes before what is in the second. -/
theorem index_lt_of_append {l xs ys : List NodeId} (hl : l = xs ++ ys) (hn : l.Nodup) {j : Nat}
    {a b : NodeId} (hi : l[i]? = some a) (ha : a ∈ xs) (hj : l[j]? = some b) (hb : b ∈ ys) :
    i < j := by
  subst hl
  obtain ⟨_, _, hne⟩ := List.nodup_append.mp hn
  have hlt : i < xs.length := by
    by_contra hge
    rw [List.getElem?_append_right (Nat.le_of_not_lt hge)] at hi
    exact hne a ha a (List.mem_of_getElem? hi) rfl
  have hge : xs.length ≤ j := by
    by_contra hlt
    rw [List.getElem?_append_left (Nat.lt_of_not_le hlt)] at hj
    exact hne b (List.mem_of_getElem? hj) b hb rfl
  exact Nat.lt_of_lt_of_le hlt hge

section Order

variable {definition : NodeId} {topology : Topology} {links : List TopologyLink}

theorem Built.select_of_within (h : doc.Built definition topology links)
    (hselects : topology.queries.map QueryScope.select = doc.selectsOf definition)
    (hq : doc.IsQueryOf definition query) (hw : doc.Within query node)
    (hi : topology.queryOf? node = some i) :
    ∃ select ∈ doc.selectsBelow query, (doc.selectsOf definition)[i]? = some select := by
  obtain ⟨scope, hs, hin, _⟩ := h.scope_of_mem (h.queryOf?_eq_some_iff.mp hi)
  have hget : (doc.selectsOf definition)[i]? = some scope.select := by
    rw [← hselects, List.getElem?_map]
    exact congrArg (Option.map QueryScope.select) hs
  exact ⟨scope.select, hq.mem_selectsBelow (List.mem_of_getElem? hget) (hw.trans hin), hget⟩

/-- All that is numbered within an arm of a `SET` comes before the later arms. -/
theorem Built.pairwise_arms (h : doc.Built definition topology links)
    (hselects : topology.queries.map QueryScope.select = doc.selectsOf definition) {body : NodeId}
    (hq : doc.IsQueryOf definition set) (hset : doc.prop? set "SET" = some body) :
    (doc.propItems body "args").Pairwise fun arm later =>
      ∀ node i j, doc.Within arm node → topology.queryOf? node = some i →
        topology.queryOf? later = some j → i < j := by
  have harm : ∀ {arm}, arm ∈ doc.propItems body "args" → doc.IsQueryOf definition arm :=
    fun ha => hq.nested (nestedQueries_of_set hset ▸ ha)
  refine List.pairwise_iff_getElem.mpr fun k l hk hl hkl node i j hw hi hj => ?_
  obtain ⟨select, hmem, hget⟩ :=
    h.select_of_within hselects (harm (List.getElem_mem hk)) hw hi
  obtain ⟨select', hmem', hget'⟩ :=
    h.select_of_within hselects (harm (List.getElem_mem hl)) .refl hj
  -- the list of all `SELECT`s, cut behind those of the arm
  obtain ⟨before, after, heq, _⟩ := hq.split
  have hcut : doc.selectsOf definition =
      (before ++ ((doc.propItems body "args").take (k + 1)).flatMap doc.selectsBelow) ++
        (((doc.propItems body "args").drop (k + 1)).flatMap doc.selectsBelow ++ after) := by
    have hall : doc.selectsBelow set =
        ((doc.propItems body "args").take (k + 1)).flatMap doc.selectsBelow ++
          ((doc.propItems body "args").drop (k + 1)).flatMap doc.selectsBelow := by
      rw [← List.flatMap_append, List.take_append_drop, selectsBelow_eq, ownSelect?_of_set hset,
        nestedQueries_of_set hset]
      rfl
    rw [heq, hall]
    simp only [List.append_assoc]
  refine index_lt_of_append hcut (hselects ▸ h.wellFormed.selects) hget
    (List.mem_append_right _ (List.mem_flatMap.mpr ⟨_, ?_, hmem⟩)) hget'
    (List.mem_append_left _ (List.mem_flatMap.mpr ⟨_, ?_, hmem'⟩))
  · exact List.mem_take_iff_getElem.mpr ⟨k, by omega, rfl⟩
  · exact List.mem_drop_iff_getElem.mpr ⟨l - (k + 1), by omega, by congr 1; omega⟩

/-- No node shares two scopes, or one scope twice. -/
theorem Built.nodup_setNodes (h : doc.Built definition topology links) :
    (topology.queries.flatMap QueryScope.setNodes).Nodup := by
  refine List.nodup_flatMap.mpr ⟨fun scope hs => ?_, ?_⟩
  · obtain ⟨i, hi⟩ := List.mem_iff_getElem?.mp hs
    exact (h.complete i scope hi).setsOnce
  · refine List.pairwise_iff_getElem.mpr fun i j hi hj hij => ?_
    show List.Disjoint _ _
    intro a ha hb
    have h₁ := ((h.complete i _ (List.getElem?_eq_getElem hi)).sets a ha).1
    have h₂ := ((h.complete j _ (List.getElem?_eq_getElem hj)).sets a hb).1
    exact Nat.ne_of_lt hij (h.sound.functional a i j h₁ h₂)

end Order

end Document

end SchemaRefs
