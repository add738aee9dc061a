import SchemaRefs.Proofs.QuerySkeleton
import SchemaRefs.Proofs.TopologyLinks

/-!
# Drafts of topologies

Rules for programs that build a draft (`Builds`), and the vocabulary for what they leave behind: a
complete scope has the table aliases of its sources, the mixins of its `SELECT` and a carrier of
result elements within the definition (`Complete`); the links found within a query give each column
one member (`LinksFrom`); and a visit leaves a sound skeleton that has grown only within the visited
query (`Visited`).
-/

namespace SchemaRefs

/-! ## Postconditions of a construction -/

/-- Every successful run from a draft ends as `post` says. -/
def Builds {α : Type} (x : BuildM α) (draft : Draft) (post : α → Draft → Prop) : Prop :=
  ∀ a draft', x.run draft = .ok (a, draft') → post a draft'

namespace Builds

variable {α β : Type} {draft : Draft}

theorem pure {a : α} {post : α → Draft → Prop} (h : post a draft) :
    Builds (pure a : BuildM α) draft post := by
  intro b draft' hb
  cases hb
  exact h

theorem throw (e : ModelError) (post : α → Draft → Prop) :
    Builds (throw e : BuildM α) draft post := by
  intro b draft' hb
  cases hb

theorem bind {x : BuildM α} {f : α → BuildM β} {mid : α → Draft → Prop} {post : β → Draft → Prop}
    (hx : Builds x draft mid) (hf : ∀ a draft', mid a draft' → Builds (f a) draft' post) :
    Builds (x >>= f) draft post := by
  intro b draft' hb
  rw [StateT.run_bind] at hb
  cases h : x.run draft with
  | error e => rw [h] at hb; cases hb
  | ok r =>
    obtain ⟨a, mid'⟩ := r
    rw [h] at hb
    exact hf a mid' (hx a mid' h) b draft' hb

theorem mono {x : BuildM α} {post post' : α → Draft → Prop} (h : Builds x draft post)
    (hp : ∀ a draft', post a draft' → post' a draft') : Builds x draft post' :=
  fun a draft' ha => hp a draft' (h a draft' ha)

theorem get_bind {f : Draft → BuildM β} {post : β → Draft → Prop}
    (h : Builds (f draft) draft post) : Builds (get >>= f) draft post := by
  intro b draft' hb
  exact h b draft' hb

theorem modify_bind {f : Draft → Draft} {g : PUnit → BuildM β} {post : β → Draft → Prop}
    (h : Builds (g ⟨⟩) (f draft) post) :
    Builds ((modify f : BuildM PUnit) >>= g) draft post := by
  intro b draft' hb
  exact h b draft' hb

theorem modify {f : Draft → Draft} {post : PUnit → Draft → Prop} (h : post ⟨⟩ (f draft)) :
    Builds (modify f : BuildM PUnit) draft post := by
  intro a draft' ha
  cases ha
  exact h

theorem lift_bind {x : Except ModelError α} {f : α → BuildM β} {post : β → Draft → Prop}
    (h : ∀ a, x = .ok a → Builds (f a) draft post) :
    Builds ((liftM x : BuildM α) >>= f) draft post := by
  intro b draft' hb
  cases x with
  | error e => cases hb
  | ok a => exact h a rfl b draft' hb

theorem forM {f : α → BuildM PUnit} (I : List α → Draft → Prop)
    (step : ∀ a rest draft, I (a :: rest) draft →
      Builds (f a) draft fun _ draft' => I rest draft') :
    ∀ (l : List α) (draft : Draft), I l draft → Builds (l.forM f) draft fun _ draft' =>
      I [] draft' := by
  intro l
  induction l with
  | nil => exact fun draft h => pure h
  | cons a rest ih =>
    intro draft h
    exact bind (step a rest draft h) fun _ draft' h' => ih draft' h'

end Builds

/-! ## Skeletons of drafts -/

/-- What of a scope is fixed when it is opened. -/
def QueryScope.shape (scope : QueryScope) : ScopeShape :=
  ⟨scope.number, scope.node, scope.select, scope.next⟩

namespace Draft

/-- The skeleton of a draft. -/
def skeleton (draft : Draft) : Skeleton :=
  ⟨draft.queries.map QueryScope.shape, draft.queryTable⟩

theorem getElem?_skeleton (draft : Draft) (i : Nat) :
    draft.skeleton.shapes[i]? = draft.queries[i]?.map QueryScope.shape := by
  simp [skeleton]

@[simp] theorem length_skeleton (draft : Draft) :
    draft.skeleton.shapes.length = draft.queries.length := by
  simp [skeleton]

theorem getElem?_modifyScope (draft : Draft) (index : Nat) (f : QueryScope → QueryScope) (i : Nat) :
    (draft.modifyScope index f).queries[i]? =
      if i = index then draft.queries[i]?.map f else draft.queries[i]? := by
  rw [modifyScope, List.getElem?_modify]
  cases draft.queries[i]? with
  | none => simp
  | some scope =>
    by_cases h : i = index
    · simp [h]
    · simp [h, Ne.symm h]

theorem skeleton_modifyScope (draft : Draft) (index : Nat) {f : QueryScope → QueryScope}
    (hf : ∀ scope, (f scope).shape = scope.shape) :
    (draft.modifyScope index f).skeleton = draft.skeleton := by
  have hq : (draft.queries.modify index f).map QueryScope.shape =
      draft.queries.map QueryScope.shape := by
    apply List.ext_getElem?
    intro i
    have hi := draft.getElem?_modifyScope index f i
    rw [modifyScope] at hi
    rw [List.getElem?_map, List.getElem?_map, hi]
    cases draft.queries[i]? with
    | none => simp
    | some scope => split <;> simp [hf]
  simp [skeleton, modifyScope, hq]

theorem skeleton_openScope (doc : Document) (definition node select : NodeId) (next : Option Nat)
    (isMain : Bool) (draft : Draft) :
    (doc.openScope definition node select next isMain draft).skeleton =
      draft.skeleton.openScope node select next := by
  simp [Document.openScope, skeleton, Skeleton.openScope, addScope, assign, QueryScope.shape]

end Draft

/-! ## Complete scopes -/

namespace Document

variable (doc : Document) {table table' : List (NodeId × Nat)}
  {aliases : List (String × AliasBinding)} {leaves : List SourceItem} {links : List TopologyLink}
  {definition top : NodeId}

/-- The leaves of the sources of a `SELECT`. -/
def selectSources (select : NodeId) : List SourceItem :=
  match doc.prop? select "from" with
  | some source => doc.sourceItems source
  | none => []

/-- The alias of a sub-query among the sources. -/
def subqueryAlias (item : NodeId) (index : Nat) : String :=
  (doc.stringProp? item "as").getD ("$_select_" ++ toString (index + 1))

/-- The table alias that a leaf of the sources stands for, where `table` numbers the sub-queries. -/
def BindsAs (table : List (NodeId × Nat)) (name : String) (binding : AliasBinding) :
    SourceItem → Prop
  | .path item tableAlias => name = tableAlias ∧ binding = .path item
  | .query item => ∃ index, (item, index) ∈ table ∧ name = doc.subqueryAlias item index ∧
      binding = .query item index
  | _ => False

/-- The table aliases are those of the leaves, each name once. -/
structure AliasesOf (table : List (NodeId × Nat)) (leaves : List SourceItem)
    (aliases : List (String × AliasBinding)) : Prop where
  distinct : (Table.keys aliases).Nodup
  sound : ∀ name binding, (name, binding) ∈ aliases →
    ∃ leaf ∈ leaves, doc.BindsAs table name binding leaf
  paths : ∀ item name, .path item name ∈ leaves → (Table.get? aliases name).isSome
  queries : ∀ item, .query item ∈ leaves → ∃ index, (item, index) ∈ table ∧
    (Table.get? aliases (doc.subqueryAlias item index)).isSome

/-- The scope with an index has all that its `SELECT` declares. -/
structure Complete (definition : NodeId) (table : List (NodeId × Nat)) (index : Nat)
    (scope : QueryScope) : Prop where
  aliases : doc.AliasesOf table (doc.selectSources scope.select) scope.aliases
  mixins : ∀ name, Table.get? scope.mixins name =
    (doc.prop? scope.select "mixin").bind fun mixins => doc.prop? mixins name
  carrier : ∀ owner, scope.elementsOwner = some owner →
    doc.Within definition owner ∧ doc.hasProp owner "elements" = true
  sets : ∀ set ∈ scope.setNodes, (set, index) ∈ table ∧
    ∀ body, doc.prop? set "SET" = some body → (body, index) ∈ table
  setsOnce : scope.setNodes.Nodup

/-- The member is a mixin of a `SELECT`. -/
def IsMixin (select member : NodeId) : Prop :=
  ∃ mixins name, doc.prop? select "mixin" = some mixins ∧ (name, member) ∈ doc.entries mixins

/-- The column belongs to a `SELECT`. -/
def IsColumn (select column : NodeId) : Prop :=
  ∃ columns, doc.prop? select "columns" = some columns ∧ doc.ColumnBelow columns column

/-- Links found within `top`: of mixins, and of columns of `SELECT`s with `own`. -/
structure LinksFrom (definition top : NodeId) (own : NodeId → Prop) (links : List TopologyLink) :
    Prop where
  parents : ∀ member parent, .parent member parent ∈ links →
    doc.Within top parent ∧ doc.IsMixin parent member
  columns : ∀ column element, .column column element ∈ links → doc.Within definition element ∧
    ∃ select, doc.Within top select ∧ own select ∧ doc.IsColumn select column
  functional : ∀ column element element', .column column element ∈ links →
    .column column element' ∈ links → element = element'

/-- What a visit of `node` leaves of a draft. -/
structure Visited (definition main : NodeId) (before : Draft) (node : NodeId) (next : Option Nat)
    (index : Nat) (after : Draft) : Prop where
  sound : after.skeleton.Sound doc main
  grows : Skeleton.Grows doc node before.skeleton after.skeleton
  /-- The scopes that were there before are not touched. -/
  old : ∀ i, i < before.queries.length → after.queries[i]? = before.queries[i]?
  top : (node, index) ∈ after.queryTable
  index_le : before.queries.length ≤ index
  next_eq : ∃ scope, after.queries[index]? = some scope ∧ scope.next = next
  complete : ∀ i scope, before.queries.length ≤ i → after.queries[i]? = some scope →
    doc.Complete definition after.queryTable i scope
  links : ∃ new, after.links = before.links ++ new ∧
    doc.LinksFrom definition node (fun _ => True) new

variable {doc}

/-! ## Growth of what a scope knows -/

theorem BindsAs.grow {name : String} {binding : AliasBinding}
    {leaf : SourceItem} (h : doc.BindsAs table name binding leaf)
    (ht : ∀ q i, (q, i) ∈ table → (q, i) ∈ table') : doc.BindsAs table' name binding leaf := by
  cases leaf with
  | path item tableAlias => exact h
  | query item =>
    obtain ⟨index, hi, hn, hb⟩ := h
    exact ⟨index, ht _ _ hi, hn, hb⟩
  | condition expr => exact h
  | fault item fault => exact h

theorem AliasesOf.grow (h : doc.AliasesOf table leaves aliases)
    (ht : ∀ q i, (q, i) ∈ table → (q, i) ∈ table') : doc.AliasesOf table' leaves aliases := by
  refine ⟨h.distinct, fun name binding hm => ?_, h.paths, fun item hm => ?_⟩
  · obtain ⟨leaf, hl, hb⟩ := h.sound name binding hm
    exact ⟨leaf, hl, hb.grow ht⟩
  · obtain ⟨index, hi, hs⟩ := h.queries item hm
    exact ⟨index, ht _ _ hi, hs⟩

theorem isSome_get?_put {α : Type} {table : List (String × α)} {key other : String} {value : α}
    (h : other = key ∨ (Table.get? table other).isSome) :
    (Table.get? (Table.put table key value) other).isSome := by
  rw [Table.get?_put]
  split
  · rfl
  · next hne => exact h.resolve_left hne

theorem mem_put {α : Type} {table : List (String × α)} {key : String} {value : α}
    {pair : String × α} (h : pair ∈ Table.put table key value) :
    pair = (key, value) ∨ pair ∈ table := by
  induction table with
  | nil => exact .inl (List.mem_singleton.mp h)
  | cons first rest ih =>
    obtain ⟨k, v⟩ := first
    unfold Table.put at h
    split at h
    · next hk =>
      rcases List.mem_cons.mp h with h | h
      · exact .inl (hk ▸ h)
      · exact .inr (List.mem_cons_of_mem _ h)
    · rcases List.mem_cons.mp h with h | h
      · exact .inr (h ▸ List.mem_cons_self)
      · exact (ih h).imp_right (List.mem_cons_of_mem _)

/-- Binding the alias of another leaf. -/
theorem AliasesOf.put {leaf : SourceItem} {name : String} {binding : AliasBinding}
    (h : doc.AliasesOf table leaves aliases) (hb : doc.BindsAs table name binding leaf) :
    doc.AliasesOf table (leaves ++ [leaf]) (Table.put aliases name binding) := by
  refine ⟨Table.nodup_keys_put h.distinct name binding, fun other value hm => ?_,
    fun item other hm => ?_,
    fun item hm => ?_⟩
  · rcases mem_put hm with heq | hm
    · cases heq
      exact ⟨leaf, by simp, hb⟩
    · obtain ⟨leaf', hl, hb'⟩ := h.sound other value hm
      exact ⟨leaf', List.mem_append_left _ hl, hb'⟩
  · apply isSome_get?_put
    rcases List.mem_append.mp hm with hm | hm
    · exact .inr (h.paths item other hm)
    · rw [← List.mem_singleton.mp hm] at hb
      exact .inl hb.1.symm
  · rcases List.mem_append.mp hm with hm | hm
    · obtain ⟨index, hi, hs⟩ := h.queries item hm
      exact ⟨index, hi, isSome_get?_put (.inr hs)⟩
    · rw [← List.mem_singleton.mp hm] at hb
      obtain ⟨index, hi, hn, _⟩ := hb
      exact ⟨index, hi, isSome_get?_put (.inl hn.symm)⟩

theorem AliasesOf.skip {expr : NodeId} (h : doc.AliasesOf table leaves aliases) :
    doc.AliasesOf table (leaves ++ [.condition expr]) aliases := by
  refine ⟨h.distinct, fun name binding hm => ?_, fun item name hm => ?_, fun item hm => ?_⟩
  · obtain ⟨leaf, hl, hb⟩ := h.sound name binding hm
    exact ⟨leaf, List.mem_append_left _ hl, hb⟩
  · exact h.paths item name (by simpa using hm)
  · exact h.queries item (by simpa using hm)

theorem Complete.grow {index : Nat} {scope : QueryScope}
    (h : doc.Complete definition table index scope) (ht : ∀ q i, (q, i) ∈ table → (q, i) ∈ table') :
    doc.Complete definition table' index scope := by
  refine ⟨h.aliases.grow ht, h.mixins, h.carrier, fun set hset => ?_, h.setsOnce⟩
  obtain ⟨h₁, h₂⟩ := h.sets set hset
  exact ⟨ht _ _ h₁, fun body hb => ht _ _ (h₂ body hb)⟩

/-! ## Links of different queries -/

theorem IsColumn.unique {select select' column : NodeId} (h : doc.IsColumn select column)
    (h' : doc.IsColumn select' column) : select = select' := by
  obtain ⟨columns, hc, hb⟩ := h
  obtain ⟨columns', hc', hb'⟩ := h'
  obtain rfl := hb.unique hb' (container?_of_prop? hc).2 (container?_of_prop? hc').2
  exact Option.some.inj ((container?_of_prop? hc).1.symm.trans (container?_of_prop? hc').1)

theorem LinksFrom.nil (definition top : NodeId) (own : NodeId → Prop) :
    doc.LinksFrom definition top own [] :=
  ⟨by simp, by simp, by simp⟩

theorem LinksFrom.append {a b : NodeId} {own own' : NodeId → Prop}
    {xs ys : List TopologyLink} (hx : doc.LinksFrom definition a own xs)
    (hy : doc.LinksFrom definition b own' ys) (ha : doc.Within top a) (hb : doc.Within top b)
    (hne : ∀ select, own select → doc.Within a select → own' select → ¬ doc.Within b select) :
    doc.LinksFrom definition top (fun select => (own select ∧ doc.Within a select) ∨
      (own' select ∧ doc.Within b select)) (xs ++ ys) := by
  have hcross : ∀ c e e', .column c e ∈ xs → .column c e' ∉ ys := by
    intro c e e' h h'
    obtain ⟨_, s, hs, ho, hc⟩ := hx.columns c e h
    obtain ⟨_, s', hs', ho', hc'⟩ := hy.columns c e' h'
    obtain rfl := hc.unique hc'
    exact hne s ho hs ho' hs'
  refine ⟨fun m p h => ?_, fun c e h => ?_, fun c e e' h h' => ?_⟩
  · rcases List.mem_append.mp h with h | h
    · exact ⟨ha.trans (hx.parents m p h).1, (hx.parents m p h).2⟩
    · exact ⟨hb.trans (hy.parents m p h).1, (hy.parents m p h).2⟩
  · rcases List.mem_append.mp h with h | h
    · obtain ⟨he, s, hs, ho, hc⟩ := hx.columns c e h
      exact ⟨he, s, ha.trans hs, .inl ⟨ho, hs⟩, hc⟩
    · obtain ⟨he, s, hs, ho, hc⟩ := hy.columns c e h
      exact ⟨he, s, hb.trans hs, .inr ⟨ho, hs⟩, hc⟩
  · rcases List.mem_append.mp h with h | h <;> rcases List.mem_append.mp h' with h' | h'
    · exact hx.functional c e e' h h'
    · exact absurd h' (hcross c e e' h)
    · exact absurd h (hcross c e' e h')
    · exact hy.functional c e e' h h'

theorem LinksFrom.mono {own own' : NodeId → Prop} (h : doc.LinksFrom definition top own links)
    (hown : ∀ select, doc.Within top select → own select → own' select) :
    doc.LinksFrom definition top own' links := by
  refine ⟨h.parents, fun c e hl => ?_, h.functional⟩
  obtain ⟨he, s, hs, ho, hc⟩ := h.columns c e hl
  exact ⟨he, s, hs, hown s hs ho, hc⟩

theorem LinksFrom.up {a : NodeId} {own : NodeId → Prop}
    (h : doc.LinksFrom definition a own links) (ha : doc.Within top a) :
    doc.LinksFrom definition top own links := by
  refine ⟨fun m p hl => ⟨ha.trans (h.parents m p hl).1, (h.parents m p hl).2⟩, fun c e hl => ?_,
    h.functional⟩
  obtain ⟨he, s, hs, ho, hc⟩ := h.columns c e hl
  exact ⟨he, s, ha.trans hs, ho, hc⟩

/-- The links of the columns of one scope. -/
theorem linksFrom_scopeLinks {options : Options} {scope : QueryScope}
    (h : doc.scopeLinks options scope = .ok links)
    (hc : ∀ owner, scope.elementsOwner = some owner → doc.Within definition owner) :
    doc.LinksFrom definition scope.select (· = scope.select) links := by
  unfold scopeLinks at h
  split at h
  · next columns elements hcol hel =>
    obtain ⟨owner, ho, hel⟩ := Option.bind_eq_some_iff.mp hel
    cases hw : doc.linkColumns options elements "" scope.number columns with
    | error e => rw [hw] at h; cases h
    | ok walk =>
      rw [hw] at h
      simp only [bind, Except.bind] at h
      split at h
      · cases h
      · cases h
        have hlinks := columnLinks_linkColumns hw
        refine ⟨fun m p hl => ?_, fun c e hl => ?_, hlinks.functional⟩
        · obtain ⟨_, _, heq, _⟩ := hlinks.shape _ hl
          cases heq
        · obtain ⟨_, _, heq, hb, he⟩ := hlinks.shape _ hl
          cases heq
          have hin := (hc owner ho).trans (within_of_container? (container?_of_prop? hel).1)
          exact ⟨hin.trans he, scope.select, .refl, rfl, columns, hcol, hb⟩
  · cases h
    exact .nil ..

end Document

end SchemaRefs
