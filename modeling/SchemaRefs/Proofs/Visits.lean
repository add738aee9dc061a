import SchemaRefs.Proofs.Drafts

/-!
# Visiting queries

Every visit of an open query that succeeds is a visit in the sense of `Document.Visited`
(`visited_visitQuery`). The proof follows the program: a scope is opened, its sub-queries are
visited one after the other, and in between aliases, mixins and links are added. `Inside` says what
holds between two such steps, where `rest` are the sub-queries that are still to be visited.
-/

namespace SchemaRefs.Document

open Skeleton

variable {doc : Document} {isMain : Bool} {i : Nat} {options : Options}

/-- The visit of a `SELECT`: where it takes place, and the draft before it. -/
structure SelectVisit where
  definition : NodeId
  main : NodeId
  before : Draft
  node : NodeId
  select : NodeId
  next : Option Nat
  count : Nat

/-- The index of the scope that the visit opens. -/
def SelectVisit.index (v : SelectVisit) : Nat :=
  v.before.queries.length

variable (doc) in
/-- A `SELECT` is being visited: `leaves` of its sources are bound, `rest` are the sub-queries to
come, and `scope` is its scope so far. -/
structure Inside (v : SelectVisit) (leaves : List SourceItem) (rest : List NodeId) (linked : Bool)
    (scope : QueryScope) (draft : Draft) : Prop where
  sound : draft.skeleton.Sound doc v.main
  opens : ∀ r ∈ rest, Open doc v.main draft.skeleton r (some v.index) (v.count + 1)
  apart : rest.Pairwise doc.Apart
  below : ∀ r ∈ rest, doc.Within v.select r ∧ v.select ≠ r
  grows : Grows doc v.node v.before.skeleton draft.skeleton
  old : ∀ i, i < v.index → draft.queries[i]? = v.before.queries[i]?
  here : draft.queries[v.index]? = some scope
  shape : scope.shape = ⟨v.index + 1, v.node, v.select, v.next⟩
  aliases : doc.AliasesOf draft.queryTable leaves scope.aliases
  complete : ∀ i scope, v.index < i → draft.queries[i]? = some scope →
    doc.Complete v.definition draft.queryTable i scope
  /-- The columns found so far are none of the sub-queries to come, and not of this `SELECT` before
  it is linked. -/
  links : ∃ new, draft.links = v.before.links ++ new ∧
    doc.LinksFrom v.definition v.node
      (fun s => (∀ r ∈ rest, ¬ doc.Within r s) ∧ (linked = false → s ≠ v.select)) new

variable {v : SelectVisit} {leaves : List SourceItem} {rest : List NodeId} {linked : Bool}
  {scope : QueryScope} {draft : Draft}

/-! ## Steps between two visits -/

theorem Inside.lt_length (h : doc.Inside v leaves rest linked scope draft) :
    v.index < draft.queries.length :=
  (List.getElem?_eq_some_iff.mp h.here).1

/-- A sub-query was visited. -/
theorem Inside.visited {sub : NodeId} {index : Nat} {after : Draft}
    (hw : doc.Within v.node v.select) (h : doc.Inside v leaves (sub :: rest) linked scope draft)
    (hv : doc.Visited v.definition v.main draft sub (some v.index) index after) :
    doc.Inside v leaves rest linked scope after := by
  obtain ⟨hap, hrest⟩ := List.pairwise_cons.mp h.apart
  have hsub := h.below sub List.mem_cons_self
  have hkeep : ∀ i, i ≤ v.index → after.queries[i]? = draft.queries[i]? :=
    fun i hi => hv.old i (Nat.lt_of_le_of_lt hi h.lt_length)
  refine ⟨hv.sound, fun r hr => ?_, hrest, fun r hr => h.below r (List.mem_cons_of_mem _ hr), ?_,
    fun i hi => ?_, ?_, h.shape, h.aliases.grow hv.grows.table, fun i scope hi hs => ?_, ?_⟩
  · exact (h.opens r (List.mem_cons_of_mem _ hr)).stays h.sound hv.sound hv.grows (hap r hr)
  · exact h.grows.trans hv.grows .refl (hw.trans hsub.1)
  · rw [hkeep i (Nat.le_of_lt hi), h.old i hi]
  · rw [hkeep _ (Nat.le_refl _), h.here]
  · rcases Nat.lt_or_ge i draft.queries.length with hlt | hge
    · rw [hv.old i hlt] at hs
      exact (h.complete i scope hi hs).grow hv.grows.table
    · exact hv.complete i scope hge hs
  · obtain ⟨new, hnew, hfrom⟩ := h.links
    obtain ⟨more, hmore, hfrom'⟩ := hv.links
    refine ⟨new ++ more, by rw [hmore, hnew, List.append_assoc], ?_⟩
    refine (hfrom.append hfrom' .refl (hw.trans hsub.1) ?_).mono ?_
    · exact fun s hs _ _ => hs.1 sub List.mem_cons_self
    · rintro s _ (⟨hs, _⟩ | ⟨_, hs⟩)
      · exact ⟨fun r hr => hs.1 r (List.mem_cons_of_mem _ hr), hs.2⟩
      · refine ⟨fun r hr => (hap r hr).not_within hs, fun _ heq => ?_⟩
        exact hsub.2 (hsub.1.antisymm (heq ▸ hs))

/-- The scope was changed. -/
theorem Inside.modifyScope {f : QueryScope → QueryScope} {leaves' : List SourceItem}
    (hf : ∀ scope, (f scope).shape = scope.shape) (h : doc.Inside v leaves rest linked scope draft)
    (ha : doc.AliasesOf draft.queryTable leaves' (f scope).aliases) :
    doc.Inside v leaves' rest linked (f scope) (draft.modifyScope v.index f) := by
  have hsk := draft.skeleton_modifyScope v.index hf
  have hne : ∀ i, i ≠ v.index →
      (draft.modifyScope v.index f).queries[i]? = draft.queries[i]? := by
    intro i hi
    rw [Draft.getElem?_modifyScope, if_neg hi]
  refine ⟨hsk ▸ h.sound, fun r hr => hsk ▸ h.opens r hr, h.apart, h.below, hsk ▸ h.grows,
    fun i hi => ?_, ?_, (hf scope).trans h.shape, ha, fun i scope hi hs => ?_, h.links⟩
  · rw [hne i (Nat.ne_of_lt hi), h.old i hi]
  · rw [Draft.getElem?_modifyScope, if_pos rfl, h.here, Option.map_some]
  · rw [hne i (Nat.ne_of_gt hi)] at hs
    exact h.complete i scope hi hs

/-- Links of the `SELECT` itself were added. -/
theorem Inside.addLinks {own : NodeId → Prop} {more : List TopologyLink} {linked' : Bool}
    (hw : doc.Within v.node v.select) (h : doc.Inside v leaves rest linked scope draft)
    (hmore : doc.LinksFrom v.definition v.select own more) (hown : ∀ s, own s → s = v.select)
    (hl : (∀ s, ¬ own s) ∧ linked' = linked ∨ linked = false ∧ linked' = true) :
    doc.Inside v leaves rest linked' scope (draft.addLinks more) := by
  refine ⟨h.sound, h.opens, h.apart, h.below, h.grows, h.old, h.here, h.shape,
    h.aliases, h.complete, ?_⟩
  obtain ⟨new, hnew, hfrom⟩ := h.links
  refine ⟨new ++ more, by rw [Draft.addLinks, hnew, List.append_assoc], ?_⟩
  refine (hfrom.append hmore .refl hw fun s hs _ ho _ => ?_).mono ?_
  · rcases hl with ⟨hl, _⟩ | ⟨hl, _⟩
    · exact hl s ho
    · exact hs.2 hl (hown s ho)
  · rintro s _ (⟨hs, _⟩ | ⟨ho, _⟩)
    · refine ⟨hs.1, fun hf => hs.2 ?_⟩
      rcases hl with ⟨_, hl⟩ | ⟨hl, _⟩
      · rw [← hl, hf]
      · exact hl
    · rw [hown s ho]
      refine ⟨fun r hr hin => (h.below r hr).2 ((h.below r hr).1.antisymm hin), fun hf => ?_⟩
      rcases hl with ⟨hl, _⟩ | ⟨_, hl⟩
      · exact absurd ho (hl s)
      · rw [hf] at hl
        cases hl

/-- The scope was just opened. -/
theorem Inside.opened {owner : Option NodeId} (hs : v.before.skeleton.Sound doc v.main)
    (ho : Open doc v.main v.before.skeleton v.node v.next v.count)
    (hcount : v.count ≤ maxQueryNesting) (hw : doc.Within v.node v.select)
    (hbody : doc.step? v.select = some (.key "SELECT") ∨
      doc.step? v.select = some (.key "projection"))
    (howner : owner =
      if doc.hasProp (if isMain then v.definition else v.select) "elements" then
        some (if isMain then v.definition else v.select)
      else none) :
    doc.Inside v [] (doc.subqueries v.select) false
      { number := v.index + 1, node := v.node, select := v.select, elementsOwner := owner,
        next := v.next }
      (doc.openScope v.definition v.node v.select v.next isMain v.before) := by
  have hsk := Draft.skeleton_openScope doc v.definition v.node v.select v.next isMain v.before
  have hlen : v.index = v.before.skeleton.shapes.length := (Draft.length_skeleton _).symm
  refine ⟨hsk ▸ hs.openScope ho hcount hw hbody, fun r hr => ?_,
    doc.pairwise_apart_subqueries v.select,
    fun r hr => within_of_mem_subqueries hr, hsk ▸ grows_openScope hw, fun i hi => ?_, ?_, rfl, ?_,
    fun i scope hi hget => ?_, ⟨[], (List.append_nil _).symm, .nil ..⟩⟩
  · rw [hsk, hlen]
    exact ho.sub hs hw hr
  · exact List.getElem?_append_left hi
  · subst howner
    exact List.getElem?_concat_length
  · exact ⟨List.nodup_nil, by simp, by simp, by simp⟩
  · have hlt := (List.getElem?_eq_some_iff.mp hget).1
    have : (doc.openScope v.definition v.node v.select v.next isMain v.before).queries.length =
        v.index + 1 := List.length_append
    omega

/-! ## The parts of a `SELECT` -/

variable (doc) in
/-- All visits of open queries with at most `count` scopes around them are visits in the sense of
`Visited`. -/
def VisitsWell (definition main : NodeId) (count : Nat) (visit : QueryVisit) : Prop :=
  ∀ draft node next isMain, draft.skeleton.Sound doc main →
    Open doc main draft.skeleton node next count →
    Builds (visit node next isMain) draft fun index after =>
      doc.Visited definition main draft node next index after

variable {visit : QueryVisit}

theorem Inside.visitNested (hw : doc.Within v.node v.select)
    (hvisit : doc.VisitsWell v.definition v.main (v.count + 1) visit) {expr : NodeId}
    (h : doc.Inside v leaves (doc.queriesBelow expr ++ rest) linked scope draft) :
    Builds (doc.visitNested visit v.index expr) draft fun _ after =>
      doc.Inside v leaves rest linked scope after := by
  refine Builds.forM (fun queries draft => doc.Inside v leaves (queries ++ rest) linked scope draft)
    (fun query queries draft h => ?_) _ _ h
  have ho := h.opens query List.mem_cons_self
  refine Builds.bind (hvisit draft query _ false h.sound ho) fun index after hv => ?_
  exact Builds.pure (h.visited hw hv)

theorem Inside.bindAlias {leaf : SourceItem} {name : String} {binding : AliasBinding}
    (h : doc.Inside v leaves rest linked scope draft)
    (hb : doc.BindsAs draft.queryTable name binding leaf) :
    doc.Inside v (leaves ++ [leaf]) rest linked
      { scope with aliases := Table.put scope.aliases name binding }
      (draft.modifyScope v.index fun scope =>
        { scope with aliases := Table.put scope.aliases name binding }) :=
  h.modifyScope (f := fun scope => { scope with aliases := Table.put scope.aliases name binding })
    (fun _ => rfl) (h.aliases.put hb)

theorem Inside.visitSource (hw : doc.Within v.node v.select)
    (hvisit : doc.VisitsWell v.definition v.main (v.count + 1) visit) {leaf : SourceItem}
    (h : doc.Inside v leaves (doc.leafQueries leaf ++ rest) linked scope draft) :
    Builds (doc.visitSource visit v.index leaf) draft fun _ after =>
      ∃ aliases, doc.Inside v (leaves ++ [leaf]) rest linked { scope with aliases } after := by
  cases leaf with
  | path item name =>
    have hb : doc.BindsAs draft.queryTable name (.path item) (.path item name) := ⟨rfl, rfl⟩
    exact Builds.modify ⟨_, h.bindAlias hb⟩
  | query item =>
    have ho := h.opens item List.mem_cons_self
    refine Builds.bind (hvisit draft item _ false h.sound ho) fun index after hv => ?_
    have h' := Inside.visited hw h hv
    have hb : doc.BindsAs after.queryTable (doc.subqueryAlias item index) (.query item index)
        (.query item) := ⟨index, hv.top, rfl, rfl⟩
    exact Builds.modify ⟨_, h'.bindAlias hb⟩
  | condition expr =>
    refine (Inside.visitNested hw hvisit h).mono fun _ after h' => ⟨scope.aliases, ?_⟩
    exact { h' with aliases := h'.aliases.skip }
  | fault item fault => cases fault <;> exact Builds.throw _ _

theorem Inside.visitSources (hw : doc.Within v.node v.select)
    (hvisit : doc.VisitsWell v.definition v.main (v.count + 1) visit)
    (h : doc.Inside v [] (doc.fromQueries v.select ++ rest) linked scope draft) :
    Builds (doc.visitSources visit v.index v.select) draft fun _ after =>
      ∃ aliases, doc.Inside v (doc.selectSources v.select) rest linked { scope with aliases }
        after := by
  unfold Document.visitSources selectSources
  unfold fromQueries at h
  cases hf : doc.prop? v.select "from" with
  | none =>
    rw [hf] at h
    exact Builds.pure ⟨scope.aliases, h⟩
  | some source =>
    rw [hf] at h
    have hstart : ∃ done aliases, done ++ doc.sourceItems source = doc.sourceItems source ∧
        doc.Inside v done ((doc.sourceItems source).flatMap doc.leafQueries ++ rest) linked
          { scope with aliases } draft := ⟨[], scope.aliases, rfl, h⟩
    refine (Builds.forM (fun items draft => ∃ done aliases, done ++ items = doc.sourceItems source ∧
      doc.Inside v done (items.flatMap doc.leafQueries ++ rest) linked { scope with aliases } draft)
      (fun leaf items draft h => ?_) _ _ hstart).mono fun _ after h' => ?_
    · obtain ⟨done, aliases, heq, h⟩ := h
      rw [List.flatMap_cons, List.append_assoc] at h
      refine (Inside.visitSource hw hvisit h).mono fun _ after h' => ?_
      obtain ⟨aliases', h'⟩ := h'
      exact ⟨done ++ [leaf], aliases', by rw [List.append_assoc]; exact heq, h'⟩
    · obtain ⟨done, aliases, heq, h'⟩ := h'
      rw [List.append_nil] at heq
      subst heq
      exact ⟨aliases, h'⟩

theorem Inside.bindMixin (hw : doc.Within v.node v.select) {mixin : String × NodeId}
    (hm : doc.IsMixin v.select mixin.2) (h : doc.Inside v leaves rest linked scope draft) :
    Builds (Document.bindMixin v.index v.select mixin) draft fun _ after =>
      doc.Inside v leaves rest linked
        { scope with mixins := Table.put scope.mixins mixin.1 mixin.2 } after := by
  have hlink : doc.LinksFrom v.definition v.select (fun _ => False) [.parent mixin.2 v.select] := by
    refine ⟨fun member parent hl => ?_, by simp, by simp⟩
    cases List.mem_singleton.mp hl
    exact ⟨.refl, hm⟩
  have h' := h.addLinks hw hlink (fun _ hf => hf.elim) (.inl ⟨fun _ hf => hf, rfl⟩)
  exact Builds.modify (h'.modifyScope
    (f := fun scope => { scope with mixins := Table.put scope.mixins mixin.1 mixin.2 })
    (fun _ => rfl) h'.aliases)

theorem Inside.bindMixins (hw : doc.Within v.node v.select) (hempty : scope.mixins = [])
    (h : doc.Inside v leaves rest linked scope draft) :
    Builds (doc.bindMixins v.index v.select) draft fun _ after =>
      ∃ mixins, (∀ name, Table.get? mixins name =
        (doc.prop? v.select "mixin").bind fun map => doc.prop? map name) ∧
        doc.Inside v leaves rest linked { scope with mixins } after := by
  unfold Document.bindMixins
  cases hm : doc.prop? v.select "mixin" with
  | none => exact Builds.pure ⟨scope.mixins, fun name => by rw [hempty]; rfl, h⟩
  | some map =>
    -- what is bound so far are the entries before the rest
    have hstart : ∃ done, done ++ doc.entries map = doc.entries map ∧
        doc.Inside v leaves rest linked { scope with mixins := done } draft :=
      ⟨[], rfl, by rw [← hempty]; exact h⟩
    refine (Builds.forM (fun entries draft => ∃ done, done ++ entries = doc.entries map ∧
      doc.Inside v leaves rest linked { scope with mixins := done } draft)
      (fun entry entries draft h => ?_) _ _ hstart).mono fun _ after h' => ?_
    · obtain ⟨done, heq, h⟩ := h
      have hnew : entry.1 ∉ Table.keys done := by
        have hd := doc.nodup_keys_entries map
        rw [← heq, Table.keys, List.map_append, List.nodup_append] at hd
        exact fun hmem => hd.2.2 entry.1 hmem entry.1 (by simp) rfl
      refine (h.bindMixin hw ⟨map, entry.1, hm, heq ▸ by simp⟩).mono fun _ after h' => ?_
      rw [Table.put_of_not_mem_keys hnew] at h'
      exact ⟨done ++ [entry], by rw [List.append_assoc]; exact heq, h'⟩
    · obtain ⟨done, heq, h'⟩ := h'
      rw [List.append_nil] at heq
      exact ⟨done, fun name => by rw [heq, Option.bind_some, get?_entries], h'⟩

theorem Inside.linkScope (hw : doc.Within v.node v.select)
    (hc : ∀ owner, scope.elementsOwner = some owner → doc.Within v.definition owner)
    (h : doc.Inside v leaves rest false scope draft) :
    Builds (doc.linkScope options v.index) draft fun _ after =>
      doc.Inside v leaves rest true scope after := by
  refine Builds.get_bind ?_
  rw [h.here]
  refine Builds.lift_bind fun links hl => ?_
  have hsel : scope.select = v.select := congrArg ScopeShape.select h.shape
  have hfrom := linksFrom_scopeLinks hl hc
  rw [hsel] at hfrom
  exact Builds.modify (h.addLinks hw hfrom (fun _ hs => hs) (.inr ⟨rfl, rfl⟩))

theorem Inside.visitExpressions (hw : doc.Within v.node v.select)
    (hvisit : doc.VisitsWell v.definition v.main (v.count + 1) visit)
    (entries : List (String × NodeId))
    (h : doc.Inside v leaves (entries.flatMap fun prop => doc.queriesBelow prop.2)
      linked scope draft) :
    Builds (entries.forM fun (_, expr) => doc.visitNested visit v.index expr) draft fun _ after =>
      doc.Inside v leaves [] linked scope after := by
  refine Builds.forM (fun entries draft =>
    doc.Inside v leaves (entries.flatMap fun prop => doc.queriesBelow prop.2) linked scope draft)
    (fun entry entries draft h => ?_) _ _ h
  rw [List.flatMap_cons] at h
  exact Inside.visitNested hw hvisit h

/-- All of the `SELECT` was visited. -/
theorem Inside.finished (h : doc.Inside v leaves [] true scope draft)
    (hc : doc.Complete v.definition draft.queryTable v.index scope) :
    doc.Visited v.definition v.main v.before v.node v.next v.index draft := by
  have hget : draft.skeleton.shapes[v.index]? = some scope.shape := by
    rw [Draft.getElem?_skeleton, h.here, Option.map_some]
  refine ⟨h.sound, h.grows, h.old, ?_, Nat.le_refl _, ⟨scope, h.here, ?_⟩,
    fun i other hi hother => ?_, ?_⟩
  · have := (h.sound.listed _ _ hget).1
    rwa [h.shape] at this
  · exact congrArg ScopeShape.next h.shape
  · rcases Nat.lt_or_eq_of_le hi with hlt | rfl
    · exact h.complete i other hlt hother
    · have hh := h.here
      rw [SelectVisit.index, hother] at hh
      exact Option.some.inj hh ▸ hc
  · obtain ⟨new, hnew, hfrom⟩ := h.links
    exact ⟨new, hnew, hfrom.mono fun _ _ _ => trivial⟩

theorem visited_visitSelect (hmain : doc.Within v.definition v.main)
    (hvisit : doc.VisitsWell v.definition v.main (v.count + 1) visit)
    (hs : v.before.skeleton.Sound doc v.main)
    (ho : Open doc v.main v.before.skeleton v.node v.next v.count)
    (hcount : v.count ≤ maxQueryNesting) (hw : doc.Within v.node v.select)
    (hbody : doc.step? v.select = some (.key "SELECT") ∨
      doc.step? v.select = some (.key "projection")) :
    Builds (doc.visitSelect options v.definition visit v.node v.select v.next isMain) v.before
      fun index after => doc.Visited v.definition v.main v.before v.node v.next index after := by
  obtain ⟨owner, howner⟩ : ∃ owner, owner =
      if doc.hasProp (if isMain then v.definition else v.select) "elements" then
        some (if isMain then v.definition else v.select) else none := ⟨_, rfl⟩
  have hcarrier : ∀ carrier, owner = some carrier →
      doc.Within v.definition carrier ∧ doc.hasProp carrier "elements" = true := by
    intro carrier hcarrier
    have hin : doc.Within v.definition (if isMain then v.definition else v.select) := by
      split
      · exact .refl
      · exact hmain.trans (ho.within.trans hw)
    rw [howner, Option.ite_none_right_eq_some] at hcarrier
    obtain ⟨helements, heq⟩ := hcarrier
    exact Option.some.inj heq ▸ ⟨hin, helements⟩
  have h₁ := Inside.opened hs ho hcount hw hbody howner
  refine Builds.get_bind (Builds.modify_bind ?_)
  refine Builds.bind (Inside.visitSources hw hvisit h₁) fun _ d₂ h₂ => ?_
  obtain ⟨aliases, h₂⟩ := h₂
  refine Builds.bind (Inside.bindMixins hw rfl h₂) fun _ d₃ h₃ => ?_
  obtain ⟨mixins, hmixins, h₃⟩ := h₃
  refine Builds.bind (Inside.linkScope hw (fun owner ho => (hcarrier owner ho).1) h₃)
    fun _ d₄ h₄ => ?_
  refine Builds.bind (Inside.visitExpressions hw hvisit _ h₄) fun _ d₅ h₅ => ?_
  exact Builds.pure (h₅.finished ⟨h₅.aliases, hmixins, hcarrier, by simp, List.nodup_nil⟩)

/-! ## The arms of a `SET` -/

variable {definition main node : NodeId} {before : Draft} {next : Option Nat} {count index : Nat}

/-- A scope that the visit has opened was changed. -/
theorem Visited.modifyScope {f : QueryScope → QueryScope}
    (hf : ∀ scope, (f scope).shape = scope.shape) (hi : before.queries.length ≤ i)
    (h : doc.Visited definition main before node next index draft)
    (hc : ∀ scope, draft.queries[i]? = some scope →
      doc.Complete definition draft.queryTable i (f scope)) :
    doc.Visited definition main before node next index (draft.modifyScope i f) := by
  have hsk := draft.skeleton_modifyScope i hf
  refine ⟨hsk ▸ h.sound, hsk ▸ h.grows, fun j hj => ?_, h.top, h.index_le, ?_,
    fun j scope hj hget => ?_, h.links⟩
  · rw [Draft.getElem?_modifyScope, if_neg (by omega), h.old j hj]
  · obtain ⟨scope, hget, hnext⟩ := h.next_eq
    rw [Draft.getElem?_modifyScope]
    split
    · refine ⟨f scope, by rw [hget, Option.map_some], ?_⟩
      exact (congrArg ScopeShape.next (hf scope)).trans hnext
    · exact ⟨scope, hget, hnext⟩
  · rw [Draft.getElem?_modifyScope] at hget
    split at hget
    · next heq =>
      obtain ⟨old, hold, rfl⟩ := Option.map_eq_some_iff.mp hget
      rw [heq] at hold ⊢
      exact hc old hold
    · exact h.complete j scope hj hget

theorem Complete.inheritOwner {table : List (NodeId × Nat)} {owner : Option NodeId}
    (h : doc.Complete definition table i scope)
    (ho : ∀ carrier, owner = some carrier →
      doc.Within definition carrier ∧ doc.hasProp carrier "elements" = true) :
    doc.Complete definition table i (inheritOwner owner scope) := by
  refine ⟨h.aliases, h.mixins, fun carrier hc => ?_, h.sets, h.setsOnce⟩
  simp only [Document.inheritOwner] at hc
  cases hs : scope.elementsOwner with
  | some own =>
    rw [hs] at hc
    cases hc
    exact h.carrier carrier hs
  | none =>
    rw [hs] at hc
    exact ho carrier hc

variable (doc) in
/-- A `SET` is being visited; `rest` are the arms to come. -/
structure ArmsLeft (definition main : NodeId) (before : Draft) (node : NodeId) (next : Option Nat)
    (count index : Nat) (rest : List NodeId) (draft : Draft) : Prop where
  visited : doc.Visited definition main before node next index draft
  opens : ∀ r ∈ rest, Open doc main draft.skeleton r next count
  apart : rest.Pairwise doc.Apart
  below : ∀ r ∈ rest, doc.Within node r
  links : ∃ new, draft.links = before.links ++ new ∧
    doc.LinksFrom definition node (fun s => ∀ r ∈ rest, ¬ doc.Within r s) new

/-- Another arm was visited. -/
theorem ArmsLeft.visitedArm {arm : NodeId} {after : Draft}
    (h : doc.ArmsLeft definition main before node next count index (arm :: rest) draft)
    (hv : doc.Visited definition main draft arm next i after) :
    doc.ArmsLeft definition main before node next count index rest after := by
  obtain ⟨hap, hrest⟩ := List.pairwise_cons.mp h.apart
  have harm := h.below arm List.mem_cons_self
  have hgrows := h.visited.grows.trans hv.grows .refl harm
  have hlen : before.queries.length ≤ draft.queries.length := by
    simpa using h.visited.grows.length_le
  obtain ⟨new, hnew, hfrom⟩ := h.links
  obtain ⟨more, hmore, hfrom'⟩ := hv.links
  have hlinks : doc.LinksFrom definition node (fun s => ∀ r ∈ rest, ¬ doc.Within r s)
      (new ++ more) := by
    refine (hfrom.append hfrom' .refl harm fun s hs _ _ => hs arm List.mem_cons_self).mono ?_
    rintro s _ (⟨hs, _⟩ | ⟨_, hs⟩)
    · exact fun r hr => hs r (List.mem_cons_of_mem _ hr)
    · exact fun r hr => (hap r hr).not_within hs
  have heq : after.links = before.links ++ (new ++ more) := by
    rw [hmore, hnew, List.append_assoc]
  refine ⟨⟨hv.sound, hgrows, fun j hj => ?_, hv.grows.table _ _ h.visited.top,
    h.visited.index_le, ?_,
    fun j scope hj hget => ?_, new ++ more, heq, hlinks.mono fun _ _ _ => trivial⟩,
    fun r hr => ?_, hrest, fun r hr => h.below r (List.mem_cons_of_mem _ hr), new ++ more,
      heq, hlinks⟩
  · rw [hv.old j (Nat.lt_of_lt_of_le hj hlen), h.visited.old j hj]
  · obtain ⟨scope, hget, hnext⟩ := h.visited.next_eq
    exact ⟨scope, by rw [hv.old index (List.getElem?_eq_some_iff.mp hget).1, hget], hnext⟩
  · rcases Nat.lt_or_ge j draft.queries.length with hlt | hge
    · rw [hv.old j hlt] at hget
      exact (h.visited.complete j scope hj hget).grow hv.grows.table
    · exact hv.complete j scope hge hget
  · exact (h.opens r (List.mem_cons_of_mem _ hr)).stays h.visited.sound hv.sound hv.grows (hap r hr)

theorem ArmsLeft.visitArm (hvisit : doc.VisitsWell definition main count visit) {arm : NodeId}
    (h : doc.ArmsLeft definition main before node next count index (arm :: rest) draft) :
    Builds (visitArm visit next index arm) draft fun _ after =>
      doc.ArmsLeft definition main before node next count index rest after := by
  refine Builds.bind (hvisit draft arm next false h.visited.sound (h.opens arm List.mem_cons_self))
    fun i after hv => Builds.modify ?_
  have h' := h.visitedArm hv
  have hlen : before.queries.length ≤ i := by
    have := h.visited.grows.length_le
    simp only [Draft.length_skeleton] at this
    exact Nat.le_trans this hv.index_le
  have hsk := after.skeleton_modifyScope i (f := inheritOwner (after.elementsOwner? index))
    fun _ => rfl
  refine ⟨h'.visited.modifyScope (fun _ => rfl) hlen fun scope hget => ?_,
    fun r hr => hsk ▸ h'.opens r hr, h'.apart, h'.below, h'.links⟩
  refine (h'.visited.complete i scope hlen hget).inheritOwner fun carrier hc => ?_
  obtain ⟨leading, hget', hc⟩ := Option.bind_eq_some_iff.mp hc
  exact (h'.visited.complete index leading h'.visited.index_le hget').carrier carrier hc

/-- One more `SET` shares the scope. -/
theorem Complete.addSet {table : List (NodeId × Nat)} {set : NodeId}
    (h : doc.Complete definition table i scope) (hset : doc.prop? node "SET" = some set)
    (hnew : node ∉ scope.setNodes) :
    doc.Complete definition ((set, i) :: (node, i) :: table) i
      { scope with setNodes := scope.setNodes ++ [node] } := by
  have hg := h.grow fun q j hq => List.mem_cons_of_mem (set, i) (List.mem_cons_of_mem (node, i) hq)
  refine ⟨hg.aliases, hg.mixins, hg.carrier, fun other hother => ?_, ?_⟩
  · rcases List.mem_append.mp hother with hother | hother
    · exact hg.sets other hother
    · obtain rfl := List.mem_singleton.mp hother
      refine ⟨List.mem_cons_of_mem _ List.mem_cons_self, fun body hb => ?_⟩
      rw [hset] at hb
      cases hb
      exact List.mem_cons_self
  · refine List.nodup_append.mpr ⟨h.setsOnce, List.pairwise_singleton _ _, ?_⟩
    rintro other hmem _ hnode rfl
    exact hnew (List.mem_singleton.mp hnode ▸ hmem)

section Leading

variable {set first : NodeId} {after : Draft}

/-- When the leading query of a `SET` was visited, no node above it is numbered yet. -/
theorem Visited.not_numbered_above (ho : Open doc main before.skeleton node next count)
    (hv : doc.Visited definition main before first next index after) {between : NodeId}
    (hb : doc.Within node between) (hlt : between < first) (i : Nat) :
    (between, i) ∉ after.queryTable := by
  intro hi
  rcases hv.grows.added between i hi with h | ⟨h, _⟩
  · exact ho.fresh between i h hb
  · exact absurd h.le (Nat.not_le.mpr hlt)

/-- The `SET` and its body get the number of the leading query. -/
theorem Visited.assignSet (hs : before.skeleton.Sound doc main)
    (ho : Open doc main before.skeleton node next count) (hset : doc.prop? node "SET" = some set)
    (hsf : doc.Within set first) (hslt : set < first)
    (hv : doc.Visited definition main before first next index after) :
    doc.Visited definition main before node next index
      ((after.assign node index).assign set index) := by
  have hns : doc.Within node set := within_of_container? (container?_of_prop? hset).1
  have hlt : node < set := (prop?_lt hset).1
  obtain ⟨lead, hlead, hnext⟩ := hv.next_eq
  have hshape : after.skeleton.shapes[index]? = some lead.shape := by
    rw [Draft.getElem?_skeleton, hlead, Option.map_some]
  have hs₁ : (after.skeleton.assign node index).Sound doc main :=
    Sound.share hs ho hv.sound hv.grows hv.top hshape hnext .refl (hns.trans hsf)
      (Nat.ne_of_lt (Nat.lt_trans hlt hslt)) hv.sound
      (hv.not_numbered_above ho .refl (Nat.lt_trans hlt hslt))
  have hs₂ : ((after.skeleton.assign node index).assign set index).Sound doc main := by
    refine Sound.share hs ho hv.sound hv.grows hv.top hshape hnext hns hsf (Nat.ne_of_lt hslt) hs₁
      fun i hi => ?_
    rcases List.mem_cons.mp hi with h | h
    · cases h
      exact Nat.lt_irrefl _ hlt
    · exact hv.not_numbered_above ho hns hslt i h
  have hle : before.skeleton.shapes.length ≤ index := by simpa using hv.index_le
  have hgrows : Grows doc node before.skeleton
      ((after.skeleton.assign node index).assign set index) :=
    grows_assign hns hle (grows_assign .refl hle
      ((Grows.refl node before.skeleton).trans hv.grows .refl (hns.trans hsf)))
  obtain ⟨new, hlinks, hfrom⟩ := hv.links
  exact ⟨hs₂, hgrows, hv.old, List.mem_cons_of_mem _ List.mem_cons_self, hv.index_le, hv.next_eq,
    fun i scope hi hget => (hv.complete i scope hi hget).grow fun q j h =>
      List.mem_cons_of_mem _ (List.mem_cons_of_mem _ h),
    new, hlinks, hfrom.up (hns.trans hsf)⟩

/-- The leading query of a `SET` was visited, and its scope is shared with the `SET`. -/
theorem ArmsLeft.lead (hmain : doc.Within definition main)
    (hs : before.skeleton.Sound doc main) (ho : Open doc main before.skeleton node next count)
    (hset : doc.prop? node "SET" = some set) (hargs : doc.propItems set "args" = first :: rest)
    (hv : doc.Visited definition main before first next index after) :
    doc.ArmsLeft definition main before node next count index rest
      (((after.assign node index).assign set index).modifyScope index fun scope =>
        inheritOwner (if doc.hasProp set "elements" then some set else none)
          { scope with setNodes := scope.setNodes ++ [node] }) := by
  have hns : doc.Within node set := within_of_container? (container?_of_prop? hset).1
  have hlt : node < set := (prop?_lt hset).1
  have harm : ∀ arm ∈ first :: rest, doc.Within set arm ∧ set < arm := by
    intro arm ha
    rw [← hargs] at ha
    exact ⟨within_of_mem_propItems ha, (lt_of_mem_propItems ha).1⟩
  obtain ⟨hsf, hslt⟩ := harm first List.mem_cons_self
  obtain ⟨hap, hrest⟩ := List.pairwise_cons.mp (hargs ▸ doc.pairwise_propItems set "args")
  obtain ⟨new, hlinks, hfrom⟩ := hv.links
  have hsk := ((after.assign node index).assign set index).skeleton_modifyScope index
    (f := fun scope => inheritOwner (if doc.hasProp set "elements" then some set else none)
      { scope with setNodes := scope.setNodes ++ [node] }) fun _ => rfl
  refine ⟨(hv.assignSet hs ho hset hsf hslt).modifyScope (fun _ => rfl) hv.index_le
    fun scope hget => ?_,
    fun r hr => ?_, hrest, fun r hr => hns.trans (harm r (List.mem_cons_of_mem _ hr)).1, new,
      hlinks, ?_⟩
  · have hc := hv.complete index scope hv.index_le hget
    have hother : node ∉ scope.setNodes := fun hmem =>
      hv.not_numbered_above ho .refl (Nat.lt_trans hlt hslt) index (hc.sets node hmem).1
    refine (hc.addSet hset hother).inheritOwner fun carrier hcar => ?_
    rw [Option.ite_none_right_eq_some] at hcar
    obtain ⟨helements, heq⟩ := hcar
    exact Option.some.inj heq ▸ ⟨hmain.trans (ho.within.trans hns), helements⟩
  · have hr' := harm r (List.mem_cons_of_mem _ hr)
    have hopen := (ho.descend hs (hns.trans hr'.1)).stays hs hv.sound hv.grows (hap r hr)
    rw [hsk]
    exact (hopen.assign fun h => Nat.not_le.mpr (Nat.lt_trans hlt hr'.2) h.le).assign
      fun h => Nat.not_le.mpr hr'.2 h.le
  · refine (hfrom.mono fun s hs _ r hr => ?_).up (hns.trans hsf)
    exact (hap r hr).not_within hs

end Leading

theorem visited_visitSet (hvisit : doc.VisitsWell definition main count visit) {set : NodeId}
    (hmain : doc.Within definition main) (hs : before.skeleton.Sound doc main)
    (ho : Open doc main before.skeleton node next count) (hset : doc.prop? node "SET" = some set) :
    Builds (doc.visitSet visit node set next isMain) before fun index after =>
      doc.Visited definition main before node next index after := by
  unfold visitSet
  split
  · exact Builds.throw _ _
  · next first rest hargs =>
    have hfirst : doc.Within node first := (within_of_container? (container?_of_prop? hset).1).trans
      (within_of_mem_propItems (hargs ▸ List.mem_cons_self))
    refine Builds.bind (hvisit before first next isMain hs (ho.descend hs hfirst))
      fun index after hv => ?_
    have hlead := ArmsLeft.lead hmain hs ho hset hargs hv
    refine Builds.modify_bind (Builds.bind (Builds.forM
      (fun arms draft => doc.ArmsLeft definition main before node next count index arms draft)
      (fun arm arms draft h => h.visitArm hvisit) rest _ hlead) fun _ after h => ?_)
    exact Builds.pure h.visited

/-! ## All queries of a definition -/

theorem visited_visitQuery (hmain : doc.Within definition main) (depth : Nat)
    (hdepth : depth ≤ maxQueryNesting) :
    doc.VisitsWell definition main (maxQueryNesting + 1 - depth)
      (doc.visitQuery options definition depth) := by
  induction depth with
  | zero => exact fun draft node next isMain _ _ => Builds.throw _ _
  | succ depth ih =>
    intro draft node next isMain hs ho
    have hcount : maxQueryNesting + 1 - (depth + 1) + 1 = maxQueryNesting + 1 - depth := by omega
    have hvisit := ih (by omega)
    unfold visitQuery
    split
    · next set hset =>
      have ho' : Open doc main draft.skeleton node next (maxQueryNesting + 1 - depth) :=
        { ho with chain := ho.chain.mono (by omega) }
      exact visited_visitSet hvisit hmain hs ho' hset
    · split
      · next select hsel =>
        have hw := within_of_container? (container?_of_prop? hsel).1
        rw [← hcount] at hvisit
        exact visited_visitSelect (v := ⟨definition, main, draft, node, select, next, _⟩)
          hmain hvisit hs ho (by simp only; omega) hw (.inl (container?_of_prop? hsel).2)
      · exact Builds.throw _ _

end SchemaRefs.Document
