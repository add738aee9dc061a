import SchemaRefs.Proofs.QueryNumbers

/-!
# The owners of result elements

A scope is opened with the owner of its own result elements, if it has any. When a `SET` has visited
its first arm, it gives its own elements to the scope of that arm; when it has visited a later arm,
it hands on what the scope of the first arm has by then. So an arm gets nothing from a `SET` further
out: at that time the inner `SET` has been left, and only the scope that it shares is given an
owner.

`Document.ownResult?` says what a query has by itself. A later arm has that, or else what its `SET`
has by itself (`owner_of_later_arm`), and with it the arms that share its scope:

* `arm_without_owner_iff`: if the scope of a `SET` has an owner, an arm at any depth has none
  exactly if neither the later arm that it belongs to nor the `SET` of this arm has results by
  itself;
* `nested_arm_without_owner`: so the last arm of a union in a union has no owner, although the view
  has elements.
-/

namespace SchemaRefs

/-! ## Scopes that keep their owners -/

/-- What of a scope its columns are linked by. -/
def QueryScope.basis (scope : QueryScope) : Nat × NodeId × Option NodeId :=
  (scope.number, scope.select, scope.elementsOwner)

theorem QueryScope.basis_eq_iff {scope : QueryScope} {number : Nat} {select : NodeId}
    {owner : Option NodeId} :
    scope.basis = (number, select, owner) ↔
      scope.number = number ∧ scope.select = select ∧ scope.elementsOwner = owner := by
  simp only [basis, Prod.mk.injEq]

theorem QueryScope.basis_eq_of_shape {scope scope' : QueryScope}
    (hshape : scope'.shape = scope.shape) (howner : scope'.elementsOwner = scope.elementsOwner) :
    scope'.basis = scope.basis :=
  basis_eq_iff.mpr ⟨congrArg ScopeShape.number hshape, congrArg ScopeShape.select hshape, howner⟩

namespace Draft

/-- Numbers are not taken back, and scopes keep what their columns are linked by. -/
structure Retains (before after : Draft) : Prop where
  table : ∀ q i, (q, i) ∈ before.queryTable → (q, i) ∈ after.queryTable
  scopes : ∀ (i : Nat) scope, before.queries[i]? = some scope →
    ∃ scope', after.queries[i]? = some scope' ∧ scope'.basis = scope.basis

namespace Retains

variable {a b c : Draft} {i : Nat} {scope : QueryScope}

theorem of_queries (hq : b.queries = a.queries)
    (ht : ∀ q i, (q, i) ∈ a.queryTable → (q, i) ∈ b.queryTable) :
    a.Retains b :=
  ⟨ht, fun _ scope h => ⟨scope, hq ▸ h, rfl⟩⟩

theorem refl (draft : Draft) : draft.Retains draft :=
  of_queries rfl fun _ _ h => h

theorem trans (h : a.Retains b) (h' : b.Retains c) : a.Retains c := by
  refine ⟨fun q i hq => h'.table q i (h.table q i hq), fun i scope hs => ?_⟩
  obtain ⟨scope', hs', hbasis⟩ := h.scopes i scope hs
  obtain ⟨scope'', hs'', hbasis'⟩ := h'.scopes i scope' hs'
  exact ⟨scope'', hs'', hbasis'.trans hbasis⟩

theorem modifyScope (h : a.Retains b) {index : Nat} {f : QueryScope → QueryScope}
    (hf : a.queries.length ≤ index ∨ ∀ scope, (f scope).basis = scope.basis) :
    a.Retains (b.modifyScope index f) := by
  refine ⟨h.table, fun i scope hs => ?_⟩
  obtain ⟨scope', hs', hbasis⟩ := h.scopes i scope hs
  rw [getElem?_modifyScope, hs']
  split
  · next heq =>
    rcases hf with hle | hf
    · exact absurd (List.getElem?_eq_some_iff.mp hs).1 (Nat.not_lt.mpr (heq ▸ hle))
    · exact ⟨f scope', rfl, (hf scope').trans hbasis⟩
  · exact ⟨scope', rfl, hbasis⟩

theorem lt_length (h : a.Retains b) (hs : a.queries[i]? = some scope) :
    i < b.queries.length := by
  obtain ⟨_, hs', _⟩ := h.scopes i scope hs
  exact (List.getElem?_eq_some_iff.mp hs').1

theorem length_le (h : a.Retains b) : a.queries.length ≤ b.queries.length := by
  by_contra hlt
  exact Nat.lt_irrefl _ (h.lt_length (List.getElem?_eq_getElem (Nat.lt_of_not_le hlt)))

theorem false_eq_decide (h : a.Retains b) (hs : a.queries[i]? = some scope) :
    false = decide (b.queries.length = 0) :=
  (decide_eq_false (Nat.ne_of_gt (Nat.zero_lt_of_lt (h.lt_length hs)))).symm

theorem owner (h : a.Retains b) (hs : a.queries[i]? = some scope) :
    ∃ scope', b.queries[i]? = some scope' ∧ scope'.elementsOwner = scope.elementsOwner := by
  obtain ⟨scope', hs', hbasis⟩ := h.scopes i scope hs
  exact ⟨scope', hs', (QueryScope.basis_eq_iff.mp hbasis).2.2⟩

end Retains

theorem retains_openScope (doc : Document) (definition node select : NodeId) (next : Option Nat)
    (isMain : Bool) (draft : Draft) :
    draft.Retains (doc.openScope definition node select next isMain draft) := by
  refine ⟨fun q i h => List.mem_cons_of_mem _ (List.mem_cons_of_mem _ h), fun i scope hs => ?_⟩
  exact ⟨scope, (List.getElem?_append_left (List.getElem?_eq_some_iff.mp hs).1).trans hs, rfl⟩

end Draft

namespace Document

variable {doc : Document} {definition : NodeId} {visit : QueryVisit} {isMain : Bool}
  {query : NodeId} {scope : QueryScope}

/-! ## Arms -/

variable (doc)

/-- The second query is the first arm of the first one, whose scope it shares. -/
def IsFirstArm (query arm : NodeId) : Prop :=
  ∃ body later, doc.prop? query "SET" = some body ∧ doc.propItems body "args" = arm :: later

/-- The second query is another arm of the first one. -/
def IsLaterArm (query arm : NodeId) : Prop :=
  ∃ body first later, doc.prop? query "SET" = some body ∧ doc.propItems body "args" = first ::
    later ∧ arm ∈ later

/-- The second query is the first one, or an arm of it at any depth. -/
def ArmBelow : NodeId → NodeId → Prop :=
  Relation.ReflTransGen fun query arm => doc.IsFirstArm query arm ∨ doc.IsLaterArm query arm

/-- The second query is the first one, or comes first in it. -/
def Opens : NodeId → NodeId → Prop :=
  Relation.ReflTransGen doc.IsFirstArm

/-- The node, if it has elements. -/
def declaring? (node : NodeId) : Option NodeId :=
  if doc.hasProp node "elements" then some node else none

/-- The owner of the result elements that a query has by itself; those of the main query may be the
definition's. -/
def ownResult? (definition : NodeId) (isMain : Bool) (query : NodeId) : Option NodeId :=
  match _hset : doc.prop? query "SET" with
  | some body =>
    (match _hargs : doc.propItems body "args" with
      | [] => none
      | first :: _ => ownResult? definition isMain first) <|> doc.declaring? body
  | none =>
    (doc.prop? query "SELECT").bind fun select =>
      doc.declaring? (if isMain then definition else select)
termination_by doc.size - query
decreasing_by
  have hmem : first ∈ doc.nestedQueries query := by
    rw [nestedQueries_of_set _hset, _hargs]
    exact List.mem_cons_self
  have := lt_of_mem_nestedQueries hmem
  omega

variable {doc}

theorem ownResult?_of_select {select : NodeId} (hset : doc.prop? query "SET" = none)
    (hsel : doc.prop? query "SELECT" = some select) :
    doc.ownResult? definition isMain query =
      doc.declaring? (if isMain then definition else select) := by
  unfold ownResult?
  split
  · next hset' =>
    rw [hset] at hset'
    cases hset'
  · rw [hsel]
    rfl

theorem ownResult?_of_set {body first : NodeId} {later : List NodeId}
    (hset : doc.prop? query "SET" = some body)
    (hargs : doc.propItems body "args" = first :: later) :
    doc.ownResult? definition isMain query =
      (doc.ownResult? definition isMain first <|> doc.declaring? body) := by
  conv => lhs; unfold ownResult?
  split
  · next hset' =>
    rw [hset] at hset'
    cases hset'
    split
    · next hargs' =>
      rw [hargs] at hargs'
      cases hargs'
    · next hargs' =>
      rw [hargs] at hargs'
      cases hargs'
      rfl
  · next hset' =>
    rw [hset] at hset'
    cases hset'

theorem IsLaterArm.mem {body first arm : NodeId} {later : List NodeId}
    (h : doc.IsLaterArm query arm) (hset : doc.prop? query "SET" = some body)
    (hargs : doc.propItems body "args" = first :: later) :
    arm ∈ later := by
  obtain ⟨body', first', later', hset', hargs', hmem⟩ := h
  rw [hset] at hset'
  cases hset'
  rw [hargs] at hargs'
  cases hargs'
  exact hmem

theorem IsFirstArm.mem_nestedQueries {arm : NodeId} (h : doc.IsFirstArm query arm) :
    arm ∈ doc.nestedQueries query := by
  obtain ⟨body, later, hset, hargs⟩ := h
  rw [nestedQueries_of_set hset, hargs]
  exact List.mem_cons_self

theorem IsLaterArm.mem_nestedQueries {arm : NodeId} (h : doc.IsLaterArm query arm) :
    arm ∈ doc.nestedQueries query := by
  obtain ⟨body, first, later, hset, hargs, hmem⟩ := h
  rw [nestedQueries_of_set hset, hargs]
  exact List.mem_cons_of_mem _ hmem

theorem ArmBelow.cases {arm : NodeId} (h : doc.ArmBelow query arm) :
    doc.Opens query arm ∨
      ∃ outer later, doc.ArmBelow query outer ∧ doc.IsLaterArm outer later ∧
      doc.Opens later arm := by
  induction h with
  | refl => exact .inl .refl
  | @tail outer arm houter harm ih =>
    rcases harm with hfirst | hlater
    · rcases ih with hopens | ⟨outer', later, houter', hlater, hopens⟩
      · exact .inl (hopens.tail hfirst)
      · exact .inr ⟨outer', later, houter', hlater, hopens.tail hfirst⟩
    · exact .inr ⟨outer, arm, houter, hlater, .refl⟩

theorem IsQueryOf.arm {arm : NodeId} (h : doc.IsQueryOf definition query)
    (harm : doc.ArmBelow query arm) : doc.IsQueryOf definition arm := by
  induction harm with
  | refl => exact h
  | tail _ harm ih =>
    exact ih.nested (harm.elim IsFirstArm.mem_nestedQueries IsLaterArm.mem_nestedQueries)

theorem Opens.armBelow {arm : NodeId} (h : doc.Opens query arm) : doc.ArmBelow query arm := by
  induction h with
  | refl => exact .refl
  | tail _ hfirst ih => exact ih.tail (.inl hfirst)

/-! ## Owners after a visit -/

variable (doc definition) in
/-- The later arm of a `SET` has the owner of its own results, or else that of the `SET`'s. Its
scope comes after the one with the index `low`. -/
def Settles (low : Nat) (draft : Draft) (set arm : NodeId) : Prop :=
  ∃ i j scope, (set, i) ∈ draft.queryTable ∧ (arm, j) ∈ draft.queryTable ∧ low < j ∧
    draft.queries[j]? = some scope ∧ scope.elementsOwner =
      (doc.ownResult? definition false arm <|> doc.ownResult? definition (decide (i = 0)) set)

section Settling

variable {low : Nat} {draft after : Draft} {set arm : NodeId}

theorem Settles.retain (h : doc.Settles definition low draft set arm) (hr : draft.Retains after) :
    doc.Settles definition low after set arm := by
  obtain ⟨i, j, scope, hset, harm, hlt, hs, howner⟩ := h
  obtain ⟨scope', hs', hsame⟩ := hr.owner hs
  exact ⟨i, j, scope', hr.table _ _ hset, hr.table _ _ harm, hlt, hs', hsame.trans howner⟩

theorem Settles.modifyScope (h : doc.Settles definition low draft set arm)
    (f : QueryScope → QueryScope) :
    doc.Settles definition low (draft.modifyScope low f) set arm := by
  obtain ⟨i, j, scope, hset, harm, hlt, hs, howner⟩ := h
  refine ⟨i, j, scope, hset, harm, hlt, ?_, howner⟩
  rw [Draft.getElem?_modifyScope, if_neg (Nat.ne_of_gt hlt), hs]

theorem Settles.lower (h : doc.Settles definition low draft set arm) {low' : Nat}
    (hle : low' ≤ low) :
    doc.Settles definition low' draft set arm := by
  obtain ⟨i, j, scope, hset, harm, hlt, hs, howner⟩ := h
  exact ⟨i, j, scope, hset, harm, Nat.lt_of_le_of_lt hle hlt, hs, howner⟩

end Settling

variable (doc definition) in
/-- All later arms in a tree of queries have their owners. -/
def SettlesBelow (low : Nat) (draft : Draft) (top : NodeId) : Prop :=
  ∀ set arm, doc.QueryBelow top set → doc.IsLaterArm set arm →
    doc.Settles definition low draft set arm

theorem SettlesBelow.lower {low low' : Nat} {draft : Draft} {top : NodeId}
    (h : doc.SettlesBelow definition low draft top) (hle : low' ≤ low) :
    doc.SettlesBelow definition low' draft top :=
  fun set arm hset harm => (h set arm hset harm).lower hle

variable (doc definition) in
/-- The owners that a visit of `top` leaves in a draft. -/
structure Endows (before : Draft) (top : NodeId) (isMain : Bool) (index : Nat) (after : Draft) :
    Prop where
  index_eq : index = before.queries.length
  retains : before.Retains after
  number : (top, index) ∈ after.queryTable
  lead : ∃ scope, after.queries[index]? = some scope ∧
    scope.elementsOwner = doc.ownResult? definition isMain top
  arms : doc.SettlesBelow definition index after top

variable (doc definition) in
/-- All visits leave owners as `Endows` says. The main query is visited first. -/
def VisitsEndow (visit : QueryVisit) : Prop :=
  ∀ before node next isMain, isMain = decide (before.queries.length = 0) →
    Builds (visit node next isMain) before fun index after =>
      doc.Endows definition before node isMain index after

/-! ### The sub-queries of a `SELECT` -/

variable (doc definition) in
/-- While the sub-queries `all` are visited, of which those in `rest` are left, the draft `opened`
is retained. -/
structure Endowing (low : Nat) (opened : Draft) (all rest : List NodeId) (draft : Draft) :
    Prop where
  retains : opened.Retains draft
  arms : ∀ top ∈ all, top ∈ rest ∨ doc.SettlesBelow definition low draft top

section Endowing

variable {low : Nat} {opened draft after : Draft} {all rest : List NodeId}

theorem Endowing.start (low : Nat) (draft : Draft) (all : List NodeId) :
    doc.Endowing definition low draft all all draft :=
  ⟨.refl draft, fun _ h => .inl h⟩

theorem Endowing.keep (h : doc.Endowing definition low opened all rest draft)
    (hr : draft.Retains after) :
    doc.Endowing definition low opened all rest after :=
  ⟨h.retains.trans hr, fun top ht => (h.arms top ht).imp_right fun hdone set arm hset harm =>
    (hdone set arm hset harm).retain hr⟩

theorem Endowing.visited (h : doc.Endowing definition low opened all (query :: rest) draft)
    (hr : draft.Retains after) (harms : doc.SettlesBelow definition low after query) :
    doc.Endowing definition low opened all rest after := by
  refine ⟨h.retains.trans hr, fun top ht => ?_⟩
  rcases h.arms top ht with hmem | hdone
  · rcases List.mem_cons.mp hmem with rfl | hmem
    · exact .inr harms
    · exact .inl hmem
  · exact .inr fun set arm hset harm => (hdone set arm hset harm).retain hr

theorem VisitsEndow.inner (h : doc.VisitsEndow definition visit) {i : Nat}
    (hs : opened.queries[i]? = some scope) (hr : opened.Retains draft) (query : NodeId)
    (next : Option Nat) :
    Builds (visit query next false) draft fun index after =>
      i < index ∧ doc.Endows definition draft query false index after := by
  refine (h draft query next false (hr.false_eq_decide hs)).mono fun index after he => ⟨?_, he⟩
  rw [he.index_eq]
  exact hr.lt_length hs

theorem VisitsEndow.carries (h : doc.VisitsEndow definition visit)
    (hopened : opened.queries[low]? = some scope) (all : List NodeId) :
    CarriesLinks visit low (doc.Endowing definition low opened all) where
  query query rest draft hI := by
    refine (h.inner hopened hI.retains query (some low)).mono fun index after he => ?_
    exact hI.visited he.2.retains (he.2.arms.lower (Nat.le_of_lt he.1))
  scope rest draft f hshape _ howner hI := by
    refine hI.keep ((Draft.Retains.refl draft).modifyScope (.inr fun scope => ?_))
    exact QueryScope.basis_eq_of_shape (hshape scope) (howner scope)
  links rest draft links hI := hI.keep (.of_queries rfl fun _ _ h => h)

/-- The sub-queries of a `SELECT` were visited. -/
theorem Endowing.endows_select {node select : NodeId} {next : Option Nat} {before : Draft}
    (hset : doc.prop? node "SET" = none) (hsel : doc.prop? node "SELECT" = some select)
    (h : doc.Endowing definition before.queries.length
      (doc.openScope definition node select next isMain before) (doc.subqueries select) [] after) :
    doc.Endows definition before node isMain before.queries.length after := by
  refine ⟨rfl, (before.retains_openScope doc definition node select next isMain).trans h.retains,
    h.retains.table _ _ (List.mem_cons_of_mem _ List.mem_cons_self), ?_, fun set arm hq harm => ?_⟩
  · rw [ownResult?_of_select hset hsel]
    exact h.retains.owner List.getElem?_concat_length
  · rcases Relation.ReflTransGen.cases_head hq with rfl | ⟨inner, hi, hq⟩
    · obtain ⟨_, _, _, hset', _⟩ := harm
      rw [hset] at hset'
      cases hset'
    · rw [nestedQueries_of_select hset hsel] at hi
      rcases h.arms inner hi with hmem | hdone
      · cases hmem
      · exact hdone set arm hq harm

end Endowing

/-! ### The arms of a `SET` -/

section Arms

variable {node set first : NodeId} {later : List NodeId} {isMain : Bool} {leading : Nat}
  {before mid : Draft}

/-- The scope of the first arm has the owner of what the `SET` has by itself. -/
theorem Endows.lead_shareScope (h : doc.Endows definition before first isMain leading mid)
    (hset : doc.prop? node "SET" = some set) (hargs : doc.propItems set "args" = first :: later) :
    ∃ scope, (doc.shareScope node set leading mid).queries[leading]? = some scope ∧
      scope.elementsOwner = doc.ownResult? definition isMain node := by
  obtain ⟨scope, hs, howner⟩ := h.lead
  have hmid : ((mid.assign node leading).assign set leading).queries[leading]? = some scope := hs
  refine ⟨inheritOwner (doc.declaring? set)
    { scope with setNodes := scope.setNodes ++ [node] }, ?_, ?_⟩
  · rw [shareScope, Draft.getElem?_modifyScope, if_pos rfl, hmid]
    rfl
  · rw [ownResult?_of_set hset hargs, ← howner]
    rfl

/-- The first arm was visited, and the `SET` shares its scope. -/
theorem Endows.shared (h : doc.Endows definition before first isMain leading mid)
    (node set : NodeId) :
    before.Retains (doc.shareScope node set leading mid) ∧
      doc.SettlesBelow definition leading (doc.shareScope node set leading mid) first := by
  have hassign : mid.Retains ((mid.assign node leading).assign set leading) :=
    .of_queries rfl fun q i hq => List.mem_cons_of_mem _ (List.mem_cons_of_mem _ hq)
  refine ⟨(h.retains.trans hassign).modifyScope (.inl (Nat.le_of_eq h.index_eq.symm)), ?_⟩
  intro inner arm hinner harm
  exact ((h.arms inner arm hinner harm).retain hassign).modifyScope _

/-- A later arm was visited, and has inherited the owner of the `SET`. -/
theorem Endows.inherit {shared draft after : Draft} {arm : NodeId} {index : Nat}
    (h : doc.Endows definition draft arm false index after) (hlt : leading < index)
    (hr : shared.Retains draft) (hs : shared.queries[leading]? = some scope)
    (howner : scope.elementsOwner = doc.ownResult? definition (decide (leading = 0)) node)
    (hnode : (node, leading) ∈ shared.queryTable) :
    let patched := after.modifyScope index (inheritOwner (after.elementsOwner? leading))
    draft.Retains patched ∧ doc.SettlesBelow definition leading patched arm ∧
      doc.Settles definition leading patched node arm := by
  have hkept := hr.trans h.retains
  refine ⟨h.retains.modifyScope (.inl (Nat.le_of_eq h.index_eq.symm)),
    fun inner later hinner hlater => ?_, ?_⟩
  · exact ((h.arms inner later hinner hlater).modifyScope _).lower (Nat.le_of_lt hlt)
  · obtain ⟨lead, hlead, hsame⟩ := hkept.owner hs
    obtain ⟨own, hown, hresult⟩ := h.lead
    refine ⟨leading, index, inheritOwner (after.elementsOwner? leading) own,
      hkept.table _ _ hnode, h.number, hlt, ?_, ?_⟩
    · rw [Draft.getElem?_modifyScope, if_pos rfl, hown]
      rfl
    · rw [inheritOwner, hresult, Draft.elementsOwner?, hlead, Option.bind_some, hsame, howner]

end Arms

theorem endows_visitSet (hv : doc.VisitsEndow definition visit) {node set : NodeId}
    {next : Option Nat} {before : Draft} (hset : doc.prop? node "SET" = some set)
    (hflag : isMain = decide (before.queries.length = 0)) :
    Builds (doc.visitSet visit node set next isMain) before fun index after =>
      doc.Endows definition before node isMain index after := by
  unfold visitSet
  split
  · exact Builds.throw _ _
  · next first later hargs =>
    refine Builds.bind (hv before first next isMain hflag) fun leading mid he =>
      Builds.modify_bind ?_
    obtain ⟨hretains, hfirst⟩ := he.shared node set
    obtain ⟨scope, hs, howner⟩ := he.lead_shareScope hset hargs
    have hnumber : (node, leading) ∈ (doc.shareScope node set leading mid).queryTable :=
      List.mem_cons_of_mem _ List.mem_cons_self
    have hmain : isMain = decide (leading = 0) := by rw [hflag, he.index_eq]
    -- the arms that were visited have their owners, and so have all arms inside of them
    refine Builds.bind (Builds.forM (fun rest draft =>
      doc.Endowing definition leading (doc.shareScope node set leading mid) (first :: later)
        rest draft ∧ ∀ arm ∈ later, arm ∈ rest ∨ doc.Settles definition leading draft node arm)
      (fun arm rest draft hI => ?_) later _
        ⟨⟨.refl _, fun top ht => ?_⟩, fun arm harm => .inl harm⟩)
      fun _ after hI => Builds.pure ?_
    · refine Builds.bind (hv.inner hs hI.1.retains arm next) fun index mid' hvisit =>
        Builds.modify ?_
      obtain ⟨hlt, hvisit⟩ := hvisit
      obtain ⟨hr, hbelow, hsettles⟩ := hvisit.inherit hlt hI.1.retains hs (hmain ▸ howner) hnumber
      refine ⟨hI.1.visited hr hbelow, fun other hother => ?_⟩
      rcases hI.2 other hother with hmem | hdone
      · rcases List.mem_cons.mp hmem with rfl | hmem
        · exact .inr hsettles
        · exact .inl hmem
      · exact .inr (hdone.retain hr)
    · rcases List.mem_cons.mp ht with rfl | ht
      · exact .inr hfirst
      · exact .inl ht
    · obtain ⟨scope', hs', hsame⟩ := hI.1.retains.owner hs
      refine ⟨he.index_eq, hretains.trans hI.1.retains, hI.1.retains.table _ _ hnumber,
        ⟨scope', hs', hsame.trans howner⟩, fun inner arm hinner harm => ?_⟩
      rcases Relation.ReflTransGen.cases_head hinner with rfl | ⟨query, hquery, hinner⟩
      · exact (hI.2 arm (harm.mem hset hargs)).resolve_left List.not_mem_nil
      · rw [nestedQueries_of_set hset, hargs] at hquery
        exact (hI.1.arms query hquery).resolve_left List.not_mem_nil inner arm hinner harm

variable (doc) in
theorem visitsEndow_visitQuery (options : Options) (definition : NodeId) (depth : Nat) :
    doc.VisitsEndow definition (doc.visitQuery options definition depth) := by
  induction depth with
  | zero => exact fun _ _ _ _ _ => Builds.throw _ _
  | succ depth ih =>
    intro before node next isMain hflag
    unfold visitQuery
    split
    · next set hset => exact endows_visitSet ih hset hflag
    · next hset =>
      split
      · next select hsel =>
        refine ((ih.carries List.getElem?_concat_length _).visitSelect (Endowing.start _ _ _)).mono
          ?_
        rintro index after ⟨rfl, h⟩
        exact h.endows_select hset hsel
      · exact Builds.throw _ _

/-! ## Owners in a topology -/

theorem settles_visitMain {options : Options} {start : Draft} (hq : start.queries = []) :
    Builds (doc.visitMain options definition) start fun _ after =>
      ∀ set arm, doc.IsQueryOf definition set → doc.IsLaterArm set arm →
        doc.Settles definition 0 after set arm := by
  have hv := visitsEndow_visitQuery doc options definition maxQueryNesting
  unfold visitMain
  cases hmain : doc.query? definition with
  | none =>
    refine Builds.pure fun set arm hset => ?_
    obtain ⟨root, hroot, _⟩ := hset
    rw [(rootQueries_of_none hmain).2] at hroot
    cases hroot
  | some main =>
    dsimp only
    split
    · next hproj =>
      refine Builds.bind ((hv.carries List.getElem?_concat_length _).visitSelect
        (Endowing.start _ _ _)) fun index after h => Builds.pure fun set arm hset harm => ?_
      obtain ⟨root, hroot, hbelow⟩ := hset
      rw [(rootQueries_of_projection hmain hproj).2] at hroot
      have hdone := (h.2.arms root hroot).resolve_left List.not_mem_nil
      exact (hdone set arm hbelow harm).lower (Nat.zero_le _)
    · next hproj =>
      refine Builds.bind (hv start main none true (by rw [hq]; rfl)) fun index after he =>
        Builds.pure fun set arm hset harm => ?_
      obtain ⟨root, hroot, hbelow⟩ := hset
      rw [(rootQueries_of_query hmain hproj).2] at hroot
      cases List.mem_singleton.mp hroot
      exact (he.arms set arm hbelow harm).lower (Nat.zero_le _)

theorem settles_buildTopology {options : Options} {topology : Topology} {links : List TopologyLink}
    (h : doc.buildTopology options definition = .ok (topology, links)) {set arm : NodeId}
    (hset : doc.IsQueryOf definition set) (harm : doc.IsLaterArm set arm) :
    topology.definition = definition ∧
      doc.Settles definition 0 ⟨topology.queries, topology.queryTable, links⟩ set arm := by
  obtain ⟨hdefinition, hrun⟩ := run_visitMain_of_buildTopology h
  exact ⟨hdefinition, settles_visitMain rfl _ _ hrun set arm hset harm⟩

end Document

/-- The owner of the result elements that a query of a topology has by itself. -/
def Topology.ownResult? (doc : Document) (topology : Topology) (query : NodeId) : Option NodeId :=
  doc.ownResult? topology.definition (decide (topology.queryOf? query = some 0)) query

namespace Document

section Topology

variable {doc : Document} {options : Options} {definition : NodeId} {topology : Topology}
  {links : List TopologyLink} (hb : doc.buildTopology options definition = .ok (topology, links))

include hb

theorem queryOf?_of_opens {query arm : NodeId} (hq : doc.IsQueryOf definition query)
    (h : doc.Opens query arm) : topology.queryOf? arm = topology.queryOf? query := by
  induction h with
  | refl => rfl
  | @tail outer arm houter hfirst ih =>
    obtain ⟨body, later, hset, hargs⟩ := hfirst
    obtain ⟨⟨first, _, i, _, hargs', hnumber, _, hfirst, _⟩, _⟩ :=
      Model.shares_leading_scope (m := ⟨doc, options⟩) hb (hq.arm (Opens.armBelow houter)) hset
    rw [hargs] at hargs'
    cases hargs'
    exact hfirst.trans (hnumber.symm.trans ih)

/-- A later arm, and every query that shares its scope, has what the arm has by itself or else what
the `SET` has by itself. -/
theorem owner_of_later_arm {set later arm : NodeId} (hq : doc.IsQueryOf definition set)
    (hlater : doc.IsLaterArm set later) (hopens : doc.Opens later arm) :
    ∃ j scope, topology.queryOf? arm = some j ∧ topology.scope? j = some scope ∧
      scope.elementsOwner = (topology.ownResult? doc later <|> topology.ownResult? doc set) := by
  have hbuilt := built_buildTopology hb
  obtain ⟨hdefinition, i, j, scope, hi, hj, hlt, hs, howner⟩ := settles_buildTopology hb hq hlater
  have hi := hbuilt.queryOf?_eq_some_iff.mpr hi
  have hj := hbuilt.queryOf?_eq_some_iff.mpr hj
  have hlead := queryOf?_of_opens hb (hq.nested hlater.mem_nestedQueries) hopens
  refine ⟨j, scope, hlead.trans hj, hs, howner.trans ?_⟩
  have hinner : decide (topology.queryOf? later = some 0) = false := by
    rw [hj, decide_eq_false_iff_not, Option.some.injEq]
    omega
  have houter : decide (topology.queryOf? set = some 0) = decide (i = 0) := by
    simp only [hi, Option.some.injEq]
  rw [Topology.ownResult?, Topology.ownResult?, hdefinition, hinner, houter]

/-- Of a `SET` whose scope has an owner of result elements, every arm at any depth has a scope. It
is the same scope if the arm comes first. If the arm comes first in a later arm of the `SET` or of
an arm, its owner is that of the results which this later arm has by itself, or else of those which
the `SET` around it has by itself. It has no owner exactly if both have none. -/
theorem arm_without_owner_iff {set arm : NodeId} (hq : doc.IsQueryOf definition set) {i : Nat}
    {scope : QueryScope} (hi : topology.queryOf? set = some i) (hs : topology.scope? i = some scope)
    (howner : scope.elementsOwner.isSome = true) (harm : doc.ArmBelow set arm) :
    ∃ j armScope, topology.queryOf? arm = some j ∧ topology.scope? j = some armScope ∧
      (doc.Opens set arm → armScope = scope) ∧
      (∀ outer later, doc.ArmBelow set outer → doc.IsLaterArm outer later → doc.Opens later arm →
        armScope.elementsOwner =
          (topology.ownResult? doc later <|> topology.ownResult? doc outer)) ∧
      (armScope.elementsOwner = none ↔
        ∃ outer later, doc.ArmBelow set outer ∧ doc.IsLaterArm outer later ∧
          doc.Opens later arm ∧ topology.ownResult? doc later = none ∧
          topology.ownResult? doc outer = none) := by
  have hshared : doc.Opens set arm → topology.queryOf? arm = some i := fun hopens =>
    (queryOf?_of_opens hb hq hopens).trans hi
  obtain ⟨j, armScope, hj, harmScope⟩ :
      ∃ j armScope, topology.queryOf? arm = some j ∧ topology.scope? j = some armScope := by
    rcases harm.cases with hopens | ⟨outer, later, houter, hlater, hopens⟩
    · exact ⟨i, scope, hshared hopens, hs⟩
    · obtain ⟨j, armScope, hj, harmScope, _⟩ := owner_of_later_arm hb (hq.arm houter) hlater hopens
      exact ⟨j, armScope, hj, harmScope⟩
  have hsame : doc.Opens set arm → armScope = scope := by
    intro hopens
    have hindex := hshared hopens
    rw [hj] at hindex
    cases hindex
    exact Option.some.inj (harmScope.symm.trans hs)
  have hhanded : ∀ outer later, doc.ArmBelow set outer → doc.IsLaterArm outer later →
      doc.Opens later arm →
      armScope.elementsOwner = (topology.ownResult? doc later <|>
        topology.ownResult? doc outer) := by
    intro outer later houter hlater hopens
    obtain ⟨j', scope', hj', hscope', hresult⟩ :=
      owner_of_later_arm hb (hq.arm houter) hlater hopens
    rw [hj] at hj'
    cases hj'
    rw [harmScope] at hscope'
    cases hscope'
    exact hresult
  refine ⟨j, armScope, hj, harmScope, hsame, hhanded, fun hnone => ?_, ?_⟩
  · rcases harm.cases with hopens | ⟨outer, later, houter, hlater, hopens⟩
    · rw [← hsame hopens, hnone] at howner
      cases howner
    · rw [hhanded outer later houter hlater hopens] at hnone
      exact ⟨outer, later, houter, hlater, hopens, by simpa using hnone⟩
  · rintro ⟨outer, later, houter, hlater, hopens, hown, hset⟩
    rw [hhanded outer later houter hlater hopens, hown, hset]
    rfl

end Topology

end Document

/-! ### A union inside a union -/

/-- A query for the element of the entity. -/
def elementQuery : Json :=
  .object [("SELECT", .object [("from", .object [("ref", .array [.string "E"])]),
    ("columns", .array [.object [("ref", .array [.string "a"])]])])]

/-- A view with elements, whose query is a union; its second arm is a union, with some more
properties. -/
def nestedDefinitions (inner : List (String × Json)) : List (String × Json) :=
  [("E", .object [("elements", .object [("a", .object [])])]),
    ("V", .object [("elements", .object [("a", .object [])]),
      ("query", .object [("SET", .object [("args", .array [ elementQuery,
      .object [("SET", .object (("args", .array [elementQuery, elementQuery]) :: inner))]])])])])]

/-- The inner union has elements. -/
def declaredDocument : Document :=
  .ofDefinitions (nestedDefinitions [("elements", .object [("a", .object [])])])

/-- The inner union has none. -/
def undeclaredDocument : Document :=
  .ofDefinitions (nestedDefinitions [])

/-- The topology of the view, with the owners of the two arms of the inner union. -/
def nestedTopology (first second : Option NodeId) : Topology where
  definition := 5
  queries :=
    [{ number := 1, node := 11, select := 12, setNodes := [8], aliases := [("E", .path 13)],
       elementsOwner := some 5, next := none },
     { number := 2, node := 23, select := 24, setNodes := [20], aliases := [("E", .path 25)],
       elementsOwner := first, next := none },
     { number := 3, node := 32, select := 33, aliases := [("E", .path 34)], elementsOwner := second,
       next := none }]
  queryTable := [(33, 2), (32, 2), (21, 1), (20, 1), (24, 1), (23, 1), (9, 0), (8, 0),
    (12, 0), (11, 0)]

theorem buildTopology_declaredDocument : declaredDocument.buildTopology {} 5 =
    .ok (nestedTopology (some 21) (some 21), [.parent 7 5, .column 17 7]) :=
  Model.eq_ok_of_toOption (by decide +kernel)

theorem buildTopology_undeclaredDocument : undeclaredDocument.buildTopology {} 5 =
    .ok (nestedTopology (some 5) none, [.parent 7 5, .column 17 7]) :=
  Model.eq_ok_of_toOption (by decide +kernel)

theorem isLaterArm_declaredDocument :
    declaredDocument.IsLaterArm 8 20 ∧ declaredDocument.IsLaterArm 20 32 :=
  ⟨⟨9, 11, [20], by decide +kernel, by decide +kernel, List.mem_singleton.mpr rfl⟩,
    21, 23, [32], by decide +kernel, by decide +kernel, List.mem_singleton.mpr rfl⟩

/-- The last arm has nothing by itself, and gets the elements of the inner union. -/
theorem arm_of_declared_union_has_owner :
    declaredDocument.ArmBelow 8 32 ∧
    ∃ j scope, (nestedTopology (some 21) (some 21)).queryOf? 32 = some j ∧
      (nestedTopology (some 21) (some 21)).scope? j = some scope ∧
      scope.elementsOwner = some 21 := by
  obtain ⟨houter, hinner⟩ := isLaterArm_declaredDocument
  have hset : declaredDocument.ArmBelow 8 20 := .single (.inr houter)
  have harm : declaredDocument.ArmBelow 8 32 := hset.tail (.inr hinner)
  have hq : declaredDocument.IsQueryOf 5 8 := ⟨8, by decide +kernel, .refl⟩
  obtain ⟨j, scope, hj, hs, _, hhanded, _⟩ :=
    Document.arm_without_owner_iff buildTopology_declaredDocument hq rfl rfl rfl harm
  refine ⟨harm, j, scope, hj, hs, (hhanded 20 32 hset hinner .refl).trans ?_⟩
  decide +kernel

/-- Without those, the last arm has no owner, although the union has the elements of the view. -/
theorem nested_arm_without_owner :
    undeclaredDocument.buildTopology {} 5 =
      .ok (nestedTopology (some 5) none, [.parent 7 5, .column 17 7]) ∧
    undeclaredDocument.IsQueryOf 5 8 ∧ undeclaredDocument.ArmBelow 8 32 ∧
    undeclaredDocument.ownSelect? 32 = some 33 ∧
    (∃ i scope, (nestedTopology (some 5) none).queryOf? 8 = some i ∧
      (nestedTopology (some 5) none).scope? i = some scope ∧ scope.elementsOwner = some 5) ∧
    ∃ j scope, (nestedTopology (some 5) none).queryOf? 32 = some j ∧
      (nestedTopology (some 5) none).scope? j = some scope ∧ scope.elementsOwner = none := by
  have houter : undeclaredDocument.IsLaterArm 8 20 :=
    ⟨9, 11, [20], by decide +kernel, by decide +kernel, List.mem_singleton.mpr rfl⟩
  have hinner : undeclaredDocument.IsLaterArm 20 32 :=
    ⟨21, 23, [32], by decide +kernel, by decide +kernel, List.mem_singleton.mpr rfl⟩
  have harm : undeclaredDocument.ArmBelow 8 32 := .tail (.single (.inr houter)) (.inr hinner)
  exact ⟨buildTopology_undeclaredDocument, ⟨8, by decide +kernel, .refl⟩, harm, by decide +kernel,
    ⟨0, _, rfl, rfl, rfl⟩, 2, _, rfl, rfl, rfl⟩

end SchemaRefs
