import SchemaRefs.Proofs.Heads
import SchemaRefs.Proofs.Lookups
import SchemaRefs.Proofs.SegmentFilters
import SchemaRefs.Proofs.SiteKinds

/-!
# The rules of resolution

Each rule has a contract: which nodes and paths it asks for, what it makes of the answers and how it
can fail. Nodes that a rule hands on belong to a definition, and a name that is looked up in the
enclosing queries is bound by the nearest of them (`nearestFrom`). Together the contracts are a
theory of sessions (`rules`) that the rules respect (`lawful_rules`).

Two failures of sessions remain, and `Defect` says where they come from: a filter on a segment of a
reference that denotes no node or has no list of segments, and the way up from an aspect that lies
directly below the definitions.
-/

namespace SchemaRefs

/-- The path of the outer reference. -/
def BaseRef.path : BaseRef → Path
  | .segment path _ => path
  | .column path => path

namespace Model

open Inquiry

variable {m : Model} {i : Nat} {node : NodeId} {path' : Path} {scope : QueryScope} {r : Resolution}
  {site site' : Site} {name : String} {topology' : Topology}

/-! ## Owned nodes -/

variable (m) in
/-- The node belongs to a definition. -/
def IsOwned (node : NodeId) : Prop :=
  (m.doc.owner? node).isSome = true

theorem isOwned_of_within {definition : NodeId} (hd : m.doc.isDefinition definition = true)
    (hw : m.doc.Within definition node) : m.IsOwned node := by
  rw [IsOwned, owner?_of_within hd hw]
  rfl

theorem IsOwned.within {a b : NodeId} (h : m.IsOwned a) (hw : m.doc.Within a b) : m.IsOwned b := by
  obtain ⟨owner, ho⟩ := Option.isSome_iff_exists.mp h
  obtain ⟨hd, ha⟩ := Document.owner?_eq_some_iff.mp ho
  exact isOwned_of_within hd (ha.trans hw)

theorem IsOwned.prop? {a b : NodeId} {key : String} (h : m.IsOwned a)
    (hp : m.doc.prop? a key = some b) : m.IsOwned b :=
  h.within (Document.within_of_container? (Document.container?_of_prop? hp).1)

theorem IsOwned.memberIn? {env member : NodeId} (h : m.IsOwned env)
    (hm : m.doc.memberIn? env name = some member) : m.IsOwned member := by
  obtain ⟨elements, he, hp⟩ := Option.bind_eq_some_iff.mp hm
  exact (h.prop? he).prop? hp

theorem isOwned_definition {definition : NodeId}
    (h : m.doc.definition? name = some definition) : m.IsOwned definition :=
  isOwned_of_within (Document.isDefinition_of_definition? h) .refl

variable (m) in
/-- The nodes of a link belong to definitions. -/
def LinkOwned (link : Link) : Prop :=
  m.IsOwned link.art ∧ ∀ env, link.env = some env → m.IsOwned env

/-! ## Failures -/

variable (m) in
/-- The first name of the reference of a site. -/
def firstName? (site : Site) : Option String :=
  (m.segmentsOf site.holder).head?.bind m.doc.segmentName?

variable (m) in
/-- The number of links that the resolution of a site has, unless it denotes no node. -/
def linkCount (site : Site) : Nat :=
  match site.kind with
  | .reference => (m.segmentsOf site.holder).length
  | .member | .definition => 1

variable (m) in
/-- The site is a reference whose first name denotes no node. -/
def DenotesNothing (site : Site) : Prop :=
  site.kind = .reference ∧ ∃ name scope, m.firstName? site = some name ∧
    m.Unlinked site name (m.segmentsOf site.holder).length scope

variable (m) in
/-- The assertions that a document can make fail. -/
inductive Defect : Assertion → Prop where
  /-- A filter decorates a segment of a reference that denotes no node, and that has no links
  therefore. -/
  | unlinked {path outer path' : Path} {topology topology' topology'' : Topology}
      {site site' site'' : Site} {position : Nat} :
      m.siteAt? path = .ok (topology, site) → site.base = some (.segment outer position) →
      m.siteAt? outer = .ok (topology', site') → m.siteAt? path' = .ok (topology'', site'') →
      site''.holder = site'.holder → m.DenotesNothing site'' →
      Defect (.unlinkedFilter position outer 0)
  /-- A filter decorates a further segment of a reference that is itself the value of a property
  `ref`. Its path stands for the object around it, which has one link. -/
  | nested {path outer : Path} {topology topology' : Topology} {site site' : Site}
      {position : Nat} :
      m.siteAt? path = .ok (topology, site) → site.base = some (.segment outer position) →
      m.siteAt? outer = .ok (topology', site') → m.doc.hasProp site'.holder "ref" = true →
      m.doc.refPath? site'.holder = none → 0 < position → Defect (.unlinkedFilter position outer 1)
  /-- The way up from an anonymous aspect leads out of all definitions. -/
  | up {path : Path} {topology : Topology} {site : Site}
      {aspect composition members owner : NodeId} :
      m.siteAt? path = .ok (topology, site) → m.firstName? site = some "up_" →
      (if site.member.isSome then site.memberParent else some site.main) = some aspect →
      m.doc.step? aspect = some (.key "targetAspect") →
      m.doc.container? aspect = some composition → m.doc.container? composition = some members →
      m.doc.container? members = some owner → m.doc.owner? owner = none →
      Defect (.outsideDefinitions owner)

/-! ## Names in the enclosing queries -/

/-- What a query binds a name to: mixins and table aliases, one before the other. -/
def boundIn (name : String) (mixinsFirst visible : Bool) (scope : QueryScope) :
    Option (Scope × Binding) :=
  let mixin := (Table.get? scope.mixins name).map fun _ =>
    (Scope.mixin, Binding.mixin name scope.number)
  let tableAlias := (if visible then Table.get? scope.aliases name else none).map fun _ =>
    (Scope.tableAlias, Binding.tableAlias name scope.number)
  if mixinsFirst then mixin <|> tableAlias else tableAlias <|> mixin

/-- What the nearest query binds a name to, of those from an index on. -/
def nearestFrom (topology : Topology) (name : String) (mixinsFirst visible : Bool) :
    (steps : Nat) → (index : Option Nat) → Option (Scope × Binding)
  | _, none => none
  | 0, some _ => none
  | steps + 1, some index =>
    (topology.scope? index).bind fun scope =>
      boundIn name mixinsFirst visible scope <|>
        nearestFrom topology name mixinsFirst visible steps scope.next

variable (m) in
/-- What the nearest enclosing query binds the first name of a reference to. -/
def nearest (site : Site) (topology : Topology) (name : String) (segments : Nat) :
    Option (Scope × Binding) :=
  nearestFrom topology name (site.context.policy.lexical == .fullMixinsFirst)
    (m.aliasesVisible site segments) maxScopeWalk
    (lexicalStart? site topology site.context.policy.lexical)

/-- The scope and the binding are those of the enclosing queries, or come from elsewhere. -/
def Follows (found : Option (Scope × Binding)) (scope : Scope) (env : Option Binding) : Prop :=
  match found with
  | some (nearest, binding) => scope = nearest ∧ env = some binding
  | none => scope ≠ .tableAlias ∧ scope ≠ .mixin

/-! ## Resolutions -/

variable (m) in
/-- What holds of a resolution for a site. -/
structure Resolved (topology : Topology) (site : Site) (r : Resolution) : Prop where
  links : ∀ link ∈ r.links, m.LinkOwned link
  art : ∀ art, r.art = some art → m.IsOwned art
  count : (r.links = [] ∧ m.DenotesNothing site) ∨ r.links.length = m.linkCount site
  context : r.context = site.context
  source : site.kind = .reference → site.context = .source → r.links ≠ []
  /-- References are looked up in the enclosing queries, unless they ask for something else. -/
  lexical : site.kind = .reference → site.context.isLexical = true →
    m.doc.flag site.holder "param" = false → m.doc.flag site.holder "global" = false →
    ∃ name, m.firstName? site = some name ∧
      Follows (m.nearest site topology name (m.segmentsOf site.holder).length) r.scope r.env

variable (m) in
/-- The theory of sessions that ask for paths with `P`. -/
def rules (P : Path → Prop) : Theory m where
  path := P
  node := fun node => m.IsOwned node ∨ m.Defect (.outsideDefinitions node)
  kept := fun holder r => ∃ path topology site, P path ∧ m.siteAt? path = .ok (topology, site) ∧
    site.holder = holder ∧ m.Resolved topology site r
  typed := fun node type => m.IsOwned node → m.IsOwned type
  assertion := m.Defect

variable (m) in
/-- The paths that the rules ask for are among those with `P`. -/
structure PathClosed (P : Path → Prop) : Prop where
  node : ∀ node, P (m.doc.pathOf node)
  base : ∀ path topology site base, P path → m.siteAt? path = .ok (topology, site) →
    site.base = some base → P base.path

variable {P : Path → Prop}

/-! ## Environments and chains -/

/-- The node is owned, or its effective type fails in a known way. -/
def Askable (m : Model) (node : NodeId) : Prop :=
  m.IsOwned node ∨ m.Defect (.outsideDefinitions node)

/-- The nodes of an optional answer belong to definitions. -/
def OwnedAnswer (m : Model) (answer : Option NodeId) : Prop :=
  ∀ node, answer = some node → m.IsOwned node

theorem ownedAnswer_none : m.OwnedAnswer none :=
  fun _ h => by cases h

theorem ownedAnswer_some (h : m.IsOwned node) : m.OwnedAnswer (some node) :=
  fun _ heq => Option.some.inj heq ▸ h

theorem eq_some_of_orElse {α : Type} {x y : Option α} {a : α} (h : (x <|> y) = some a) :
    x = some a ∨ y = some a := by
  cases x with
  | none => exact .inr h
  | some b => exact .inl h

theorem meets_fail {α : Type} {post : α → Prop} (e : ModelError) :
    (fail e : Inquiry α).Meets (m.rules P).contract post :=
  trivial

theorem meets_typeOf (h : m.Askable node) :
    (typeOf node).Meets (m.rules P).contract fun type => m.IsOwned node ∧ m.IsOwned type :=
  ⟨h, fun _ ht => ⟨ht.1, ht.2 ht.1⟩⟩

theorem meets_resolutionAt {path : Path} (hp : P path) :
    (resolutionAt path).Meets (m.rules P).contract ((m.rules P).Resolves path) :=
  ⟨hp, fun _ hr => hr⟩

theorem resolved_of_resolves {path : Path} (h : (m.rules P).Resolves path r) :
    ∃ topology site topology' site', m.siteAt? path = .ok (topology, site) ∧
      (∃ path', P path' ∧ m.siteAt? path' = .ok (topology', site')) ∧
      site'.holder = site.holder ∧ m.Resolved topology' site' r := by
  obtain ⟨topology, site, hsite, path', topology', site', hp, hsite', hh, hr⟩ := h
  exact ⟨topology, site, topology', site', hsite, ⟨path', hp, hsite'⟩, hh, hr⟩

theorem meets_envWithin (node : NodeId) (preferStatic : Bool) (steps : Nat) {current : NodeId}
    (h : m.Askable current) :
    (m.envWithin node preferStatic steps current).Meets (m.rules P).contract fun env =>
      m.IsOwned current ∧ m.OwnedAnswer env := by
  induction steps generalizing current with
  | zero => exact meets_fail _
  | succ steps ih =>
    refine Meets.bind (meets_typeOf h) fun type ⟨hcurrent, htype⟩ => ?_
    split
    · next items hi =>
      have hitems : m.IsOwned items := htype.prop? (Document.prop?_of_objectProp? hi)
      exact (ih (.inl hitems)).weaken fun env henv => ⟨hcurrent, henv.2⟩
    · split
      · exact ⟨hcurrent, ownedAnswer_some htype⟩
      · split
        · exact ⟨hcurrent, ownedAnswer_none⟩
        · next target ht =>
          have htarget : m.IsOwned target := by
            unfold targetOf? at ht
            split at ht
            all_goals
              rcases eq_some_of_orElse ht with ht | ht <;> exact htype.prop? ht
          split
          · split
            · next definition hd =>
              exact (ih (.inl (isOwned_definition hd))).weaken fun env henv => ⟨hcurrent, henv.2⟩
            · exact meets_fail _
          · refine ⟨hcurrent, ?_⟩
            split
            · exact ownedAnswer_some htarget
            · exact ownedAnswer_none

theorem meets_envOf (h : m.Askable node) (preferStatic : Bool) :
    (m.envOf node preferStatic).Meets (m.rules P).contract fun env =>
      m.IsOwned node ∧ m.OwnedAnswer env :=
  meets_envWithin node preferStatic _ h

theorem meets_typeTarget (hP : m.PathClosed P) (type : NodeId) :
    (m.typeTarget type).Meets (m.rules P).contract m.OwnedAnswer := by
  unfold typeTarget
  split
  · exact fun definition hd => isOwned_definition hd
  · split
    · refine Meets.bind (meets_resolutionAt (hP.node type)) fun r hr => ?_
      obtain ⟨_, _, _, _, _, _, _, hresolved⟩ := resolved_of_resolves hr
      exact hresolved.art
    · exact ownedAnswer_none

theorem meets_memberPath (steps : List NodeId) {current : NodeId} (h : m.IsOwned current) :
    (m.memberPath steps current).Meets (m.rules P).contract m.OwnedAnswer := by
  induction steps generalizing current with
  | nil => exact ownedAnswer_some h
  | cons step rest ih =>
    unfold memberPath
    split
    · exact ownedAnswer_none
    · refine Meets.bind (meets_envOf (.inl h) false) fun env henv => ?_
      split
      · exact ownedAnswer_none
      · next env =>
        split
        · exact ownedAnswer_none
        · next member hm => exact ih ((henv.2 env rfl).memberIn? hm)

theorem meets_originTarget (marker : NodeId) :
    (m.originTarget marker).Meets (m.rules P).contract m.OwnedAnswer := by
  unfold originTarget
  split
  · exact fun definition hd => isOwned_definition hd
  · split
    · next definition hd =>
      obtain ⟨name, _, hd⟩ := Option.bind_eq_some_iff.mp hd
      exact meets_memberPath _ (isOwned_definition hd)
    · exact ownedAnswer_none
  · exact ownedAnswer_none

theorem meets_typePart (hP : m.PathClosed P) (node : NodeId) :
    (partTarget m.typeTarget (m.doc.typeRef? node)).Meets (m.rules P).contract m.OwnedAnswer := by
  unfold partTarget
  split
  · exact meets_typeTarget hP _
  · exact ownedAnswer_none

theorem meets_originPart (node : NodeId) :
    (partTarget m.originTarget (m.doc.originMarker? node)).Meets (m.rules P).contract
      m.OwnedAnswer := by
  unfold partTarget
  split
  · exact meets_originTarget _
  · exact ownedAnswer_none

theorem meets_chainLink (hP : m.PathClosed P) (node : NodeId) :
    (m.chainLink node).Meets (m.rules P).contract m.OwnedAnswer := by
  refine Meets.bind (meets_typePart hP node) fun next hnext => ?_
  split
  · exact hnext
  · exact meets_originPart node

/-! ## Names in the enclosing queries -/

section Sites

variable {path : Path} {topology : Topology} {site : Site}

theorem topology_eq_of_main
    (h : m.siteAt? path = .ok (topology, site)) (h' : m.siteAt? path' = .ok (topology', site'))
    (hm : site.main = site'.main) : topology = topology' := by
  obtain ⟨_, _, hb, _⟩ := siteAt?_eq_ok h
  obtain ⟨_, _, hb', _⟩ := siteAt?_eq_ok h'
  rw [hm, hb'] at hb
  cases hb
  rfl

theorem main_eq_of_holder
    (h : m.siteAt? path = .ok (topology, site)) (h' : m.siteAt? path' = .ok (topology', site'))
    (hh : site.holder = site'.holder) : site.main = site'.main := by
  have ho := owner?_holder h
  rw [hh, owner?_holder h'] at ho
  exact (Option.some.inj ho).symm

theorem kind_eq_of_holder
    (h : m.siteAt? path = .ok (topology, site)) (h' : m.siteAt? path' = .ok (topology', site'))
    (hh : site.holder = site'.holder) : site.kind = site'.kind := by
  have hmain := main_eq_of_holder h h' hh
  obtain rfl := topology_eq_of_main h h' hmain
  obtain ⟨_, hd, _, _, ha, _⟩ := siteAt?_eq_ok h
  obtain ⟨_, hd', _, _, ha', _⟩ := siteAt?_eq_ok h'
  exact Site.kind_of_holder hd (hmain ▸ hd') ha ha' hh

theorem isOwned_main (h : m.siteAt? path = .ok (topology, site))
    (hw : m.doc.Within site.main node) : m.IsOwned node := by
  obtain ⟨_, hd, _⟩ := siteAt?_eq_ok h
  exact isOwned_of_within (Document.isDefinition_of_pathDefinition hd) hw

/-- Every site that a source of a query holds is one of the context `source`. -/
theorem context_of_source (hsite : m.siteAt? path = .ok (topology, site))
    (hs : topology.scope? i = some scope) {item : NodeId}
    (hleaf : .path item name ∈ m.doc.selectSources scope.select) (hw : m.doc.Within site.main item)
    (hsite' : m.siteAt? path' = .ok (topology', site')) (hh : site'.holder = item) :
    site'.context = .source ∧ site'.kind = .reference := by
  obtain ⟨links, hd, _, hbuilt, _, _⟩ := siteAt?_eq_ok hsite
  have howner := owner?_holder hsite'
  rw [hh, owner?_of_within (Document.isDefinition_of_pathDefinition hd) hw] at howner
  have hmain : site.main = site'.main := Option.some.inj howner
  obtain rfl := topology_eq_of_main hsite hsite' hmain
  obtain ⟨_, hd', _, _, ha, _⟩ := siteAt?_eq_ok hsite'
  exact Site.context_of_source hbuilt (hmain ▸ hd') ha hs hleaf hh

/-- A source of a query resolves to at least one link. -/
theorem links_ne_nil_of_source (hsite : m.siteAt? path = .ok (topology, site))
    (hs : topology.scope? i = some scope) {item : NodeId}
    (hleaf : .path item name ∈ m.doc.selectSources scope.select) (hw : m.doc.Within site.main item)
    (hr : (m.rules P).Resolves (m.doc.pathOf item) r) :
    r.links ≠ [] ∧ ∀ link ∈ r.links, m.LinkOwned link := by
  obtain ⟨links, hd, _, hbuilt, _, _⟩ := siteAt?_eq_ok hsite
  have howner := owner?_of_within (Document.isDefinition_of_pathDefinition hd) hw
  obtain ⟨topology₁, site₁, topology₂, site₂, h₁, ⟨path₂, _, h₂⟩, hh, hres⟩ :=
    resolved_of_resolves hr
  -- both sites are those of the leaf
  obtain ⟨_, hd₁, _, _, ha₁, _⟩ := siteAt?_eq_ok h₁
  rw [Document.pathDefinition_pathOf howner] at hd₁
  obtain rfl := topology_eq_of_main hsite h₁ (Except.ok.inj hd₁)
  obtain ⟨_, hleafSite, _, hitem, _⟩ := Site.exists_of_source hbuilt howner hs hleaf
  rw [ha₁] at hleafSite
  cases hleafSite
  obtain ⟨hctx, hkind⟩ := context_of_source hsite hs hleaf hw h₂ (hh.trans hitem)
  exact ⟨hres.source hkind hctx, hres.links⟩

theorem meets_aliasLink (hP : m.PathClosed P) (hsite : m.siteAt? path = .ok (topology, site))
    (hs : topology.scope? i = some scope)
    {binding : AliasBinding} (hb : (name, binding) ∈ scope.aliases) :
    (m.aliasLink topology binding).Meets (m.rules P).contract m.LinkOwned := by
  obtain ⟨links, _, _, hbuilt, _, _⟩ := siteAt?_eq_ok hsite
  have hselect := (hbuilt.within_of_mem (hbuilt.mem_of_scope hs).2).1
  obtain ⟨leaf, hleaf, hbinds⟩ := (hbuilt.complete i scope hs).aliases.sound name binding hb
  cases leaf with
  | path item tableAlias =>
    obtain ⟨rfl, rfl⟩ := hbinds
    have hw : m.doc.Within site.main item :=
      hselect.trans (Document.path_of_mem_selectSources hleaf).1.within.1
    refine Meets.bind (meets_resolutionAt (hP.node item)) fun r hr => ?_
    obtain ⟨hne, howned⟩ := links_ne_nil_of_source hsite hs hleaf hw hr
    split
    · next link hl => exact howned link (List.mem_of_getLast? hl)
    · next hl => exact absurd (List.getLast?_eq_none_iff.mp hl) hne
  | query item =>
    obtain ⟨index, hi, _, rfl⟩ := hbinds
    obtain ⟨sub, hsub, _⟩ := hbuilt.scope_of_mem hi
    simp only [aliasLink, hsub]
    refine ⟨isOwned_main hsite (hbuilt.within_of_mem (hbuilt.mem_of_scope hsub).1).1,
      fun env he => ?_⟩
    exact isOwned_main hsite ((hbuilt.complete index sub hsub).carrier env he).1
  | condition expr => exact hbinds.elim
  | fault item fault => exact hbinds.elim

variable (m) in
/-- The head is the binding that was found, or nothing was found. -/
def Finds (found : Option (Scope × Binding)) (head : Option Head) : Prop :=
  match found with
  | some (scope, binding) =>
    ∃ link, head = some (.bound link scope (some binding)) ∧ m.LinkOwned link
  | none => head = none

theorem meets_bindingIn (hP : m.PathClosed P) (hsite : m.siteAt? path = .ok (topology, site))
    (hs : topology.scope? i = some scope) (name : String) (mixinsFirst visible : Bool) :
    (m.bindingIn topology name mixinsFirst visible scope).Meets (m.rules P).contract
      (m.Finds (boundIn name mixinsFirst visible scope)) := by
  obtain ⟨links, _, _, hbuilt, _, _⟩ := siteAt?_eq_ok hsite
  have hselect := isOwned_main hsite (hbuilt.within_of_mem (hbuilt.mem_of_scope hs).2).1
  have hmixin : ∀ mixin, Table.get? scope.mixins name = some mixin → m.LinkOwned ⟨mixin, none⟩ := by
    intro mixin hm
    rw [(hbuilt.complete i scope hs).mixins] at hm
    obtain ⟨mixins, hmixins, hm⟩ := Option.bind_eq_some_iff.mp hm
    exact ⟨(hselect.prop? hmixins).prop? hm, fun env he => by cases he⟩
  have halias : ∀ binding, Table.get? scope.aliases name = some binding →
      (m.aliasHead topology name scope binding >>= fun head => pure (some head)).Meets
        (m.rules P).contract fun head => ∃ link, head = some (.bound link .tableAlias
          (some (.tableAlias name scope.number))) ∧ m.LinkOwned link := by
    intro binding hb
    have hlink := meets_aliasLink hP hsite hs (Table.mem_of_get? hb)
    refine Meets.bind (Meets.bind hlink fun link hl => ?_) fun head hh => hh
    exact ⟨link, rfl, hl⟩
  unfold bindingIn boundIn
  cases hm : Table.get? scope.mixins name with
  | none =>
    cases ha : (if visible then Table.get? scope.aliases name else none) with
    | none => cases mixinsFirst <;> rfl
    | some binding =>
      have hb : Table.get? scope.aliases name = some binding := by
        split at ha
        · exact ha
        · cases ha
      cases mixinsFirst <;> exact halias binding hb
  | some mixin =>
    cases ha : (if visible then Table.get? scope.aliases name else none) with
    | none => cases mixinsFirst <;> exact ⟨_, rfl, hmixin mixin hm⟩
    | some binding =>
      have hb : Table.get? scope.aliases name = some binding := by
        split at ha
        · exact ha
        · cases ha
      cases mixinsFirst with
      | true => exact ⟨_, rfl, hmixin mixin hm⟩
      | false => exact halias binding hb

theorem meets_lexicalFrom (hP : m.PathClosed P) (hsite : m.siteAt? path = .ok (topology, site))
    (name : String) (mixinsFirst visible : Bool) {count steps : Nat} {index : Option Nat}
    (hle : count ≤ steps) (hchain : topology.skeleton.ChainWithin count index) :
    (m.lexicalFrom topology name mixinsFirst visible steps index).Meets (m.rules P).contract
      (m.Finds (nearestFrom topology name mixinsFirst visible steps index)) := by
  induction count generalizing steps index with
  | zero =>
    cases index with
    | none => cases steps <;> rfl
    | some index => exact hchain.elim
  | succ count ih =>
    cases index with
    | none => cases steps <;> rfl
    | some index =>
      obtain ⟨steps, rfl⟩ := Nat.exists_eq_add_one_of_ne_zero (Nat.ne_zero_of_lt hle)
      obtain ⟨shape, hshape, hnext⟩ := hchain
      rw [Document.getElem?_shapes] at hshape
      obtain ⟨scope, hs, rfl⟩ := Option.map_eq_some_iff.mp hshape
      unfold lexicalFrom nearestFrom
      rw [hs, Option.bind_some]
      refine Meets.bind (meets_bindingIn hP hsite hs name mixinsFirst visible) fun head hhead => ?_
      cases hb : boundIn name mixinsFirst visible scope with
      | some found =>
        obtain ⟨nearest, binding⟩ := found
        rw [hb] at hhead
        obtain ⟨link, rfl, hl⟩ := hhead
        exact ⟨link, rfl, hl⟩
      | none =>
        rw [hb] at hhead
        cases hhead
        exact ih (Nat.le_of_succ_le_succ hle) hnext

/-- The query of a site has a scope. -/
theorem exists_scope_of_query (hsite : m.siteAt? path = .ok (topology, site))
    (hq : site.query = some i) : ∃ scope, topology.scope? i = some scope := by
  obtain ⟨links, _, _, hbuilt, _, hl⟩ := siteAt?_eq_ok hsite
  cases hl.query with
  | inside hi hn =>
    rw [hq] at hi
    cases hi
    obtain ⟨scope, hs, _⟩ := hbuilt.scope_of_mem hn.mem
    exact ⟨scope, hs⟩
  | outside hnone =>
    rw [hq] at hnone
    cases hnone
  | published hz hs =>
    rw [hq] at hz
    cases hz
    exact ⟨_, hs⟩

theorem lt_length_shapes (hs : topology.scope? i = some scope) :
    i < topology.skeleton.shapes.length := by
  refine (List.getElem?_eq_some_iff (a := scope.shape)).mp ?_ |>.1
  rw [Document.getElem?_shapes, hs, Option.map_some]

/-- The search in the enclosing queries is short. -/
theorem chainWithin_lexicalStart (hsite : m.siteAt? path = .ok (topology, site))
    (lexical : Lexical) :
    topology.skeleton.ChainWithin (maxQueryNesting + 1) (lexicalStart? site topology lexical) := by
  obtain ⟨links, _, _, hbuilt, _, _⟩ := siteAt?_eq_ok hsite
  cases hstart : lexicalStart? site topology lexical with
  | none => trivial
  | some i =>
    refine hbuilt.sound.chain i ?_
    have hquery : ∀ {j}, site.query = some j → j < topology.skeleton.shapes.length := by
      intro j hj
      obtain ⟨scope, hs⟩ := exists_scope_of_query hsite hj
      exact lt_length_shapes hs
    unfold lexicalStart? at hstart
    split at hstart
    · obtain ⟨scope, hscope, hnext⟩ := Option.bind_eq_some_iff.mp hstart
      obtain ⟨j, hj, hs⟩ := Option.bind_eq_some_iff.mp hscope
      have hshape : topology.skeleton.shapes[j]? = some scope.shape := by
        rw [Document.getElem?_shapes, hs, Option.map_some]
      exact Nat.lt_trans (hbuilt.sound.next_lt j scope.shape i hshape hnext) (hquery hj)
    · exact hquery hstart

theorem meets_lexicalHead (hP : m.PathClosed P) (hsite : m.siteAt? path = .ok (topology, site))
    (name : String) (segments : Nat) :
    (m.lexicalHead site topology site.context.policy.lexical name segments).Meets
      (m.rules P).contract (m.Finds (m.nearest site topology name segments)) :=
  meets_lexicalFrom hP hsite name _ _ (by decide) (chainWithin_lexicalStart hsite _)

/-! ## Other places -/

variable (m) in
/-- The nodes of a head belong to definitions. -/
def HeadOwned : Head → Prop
  | .bound link _ _ => m.LinkOwned link
  | .unlinked _ => True

variable (m) in
/-- A head that does not come from the enclosing queries. -/
structure Plain (head : Head) : Prop where
  owned : m.HeadOwned head
  notAlias : head.scope ≠ .tableAlias
  notMixin : head.scope ≠ .mixin

theorem plain_bound {art : NodeId} {env : Option NodeId} {scope : Scope} {binding : Option Binding}
    (ha : m.IsOwned art) (he : m.OwnedAnswer env) (hs : scope ≠ .tableAlias ∧ scope ≠ .mixin) :
    m.Plain (.bound ⟨art, env⟩ scope binding) :=
  ⟨⟨ha, he⟩, hs.1, hs.2⟩

theorem plain_plainHead {art : NodeId} {scope : Scope} (ha : m.IsOwned art)
    (hs : scope ≠ .tableAlias ∧ scope ≠ .mixin) : m.Plain (plainHead art scope) :=
  plain_bound ha ownedAnswer_none hs

theorem meets_dollarHead (hsite : m.siteAt? path = .ok (topology, site)) (name : String) :
    (m.dollarHead site topology name).Meets (m.rules P).contract
      fun head => ∀ h, head = some h → m.Plain h := by
  have hmain := isOwned_main hsite .refl
  unfold dollarHead
  split
  · exact fun h heq => by cases heq
  · split
    · refine Meets.bind (meets_envOf (.inl hmain) false) fun env henv => ?_
      intro h heq
      cases heq
      exact plain_bound hmain henv.2 (by decide)
    · intro h heq
      cases heq
      exact ⟨trivial, by decide, by decide⟩

theorem meets_globalHead (site : Site) (name : String) (segments : Nat) :
    (m.globalHead site name segments).Meets (m.rules P).contract
      fun head => m.Plain head ∧ (site.context ≠ .type →
        ∃ link scope env, head = .bound link scope env) := by
  unfold globalHead
  split
  · next definition hd =>
    exact ⟨plain_plainHead (isOwned_definition hd) (by decide), fun _ => ⟨_, _, _, rfl⟩⟩
  · split
    · next hc => exact ⟨⟨trivial, by decide, by decide⟩, fun h => absurd hc.2.1 h⟩
    · exact meets_fail _

theorem meets_upHead (hsite : m.siteAt? path = .ok (topology, site)) {aspect : NodeId}
    (hparent : (if site.member.isSome then site.memberParent else some site.main) = some aspect)
    (hname : m.firstName? site = some "up_") :
    (m.upHead aspect).Meets (m.rules P).contract fun head => ∀ h, head = some h → m.Plain h := by
  have hnone : ∀ h, (none : Option Head) = some h → m.Plain h := fun h heq => by cases heq
  unfold upHead
  split
  · exact hnone
  · next hkey =>
    split
    · exact hnone
    · next composition hc =>
      split
      · exact hnone
      · next owner ho =>
        obtain ⟨members, hm, ho⟩ := Option.bind_eq_some_iff.mp ho
        have hstep : m.doc.step? aspect = some (.key "targetAspect") := by
          cases hs : m.doc.step? aspect with
          | none => simp [hs] at hkey
          | some step =>
            rw [hs] at hkey
            cases step with
            | key key => simpa [Step.isKey, Step.key?] using hkey
            | index position => simp [Step.isKey, Step.key?] at hkey
        have hask : m.Askable owner := by
          cases hown : m.doc.owner? owner with
          | some definition => exact .inl (by rw [IsOwned, hown]; rfl)
          | none => exact .inr (.up hsite hname hparent hstep hc hm ho hown)
        refine Meets.bind (meets_envOf hask false) fun env henv => ?_
        intro h heq
        cases heq
        exact plain_bound henv.1 henv.2 (by decide)

theorem meets_parentHead (hsite : m.siteAt? path = .ok (topology, site))
    (hname : m.firstName? site = some name) :
    (m.parentHead site name).Meets (m.rules P).contract m.Plain := by
  obtain ⟨_, _, _, _, _, hl⟩ := siteAt?_eq_ok hsite
  unfold parentHead
  split
  · exact meets_fail _
  · next parent hparent =>
    have howned : m.IsOwned parent := by
      split at hparent
      · exact isOwned_main hsite (hl.memberParent parent hparent)
      · cases hparent
        exact isOwned_main hsite .refl
    refine Meets.bind (meets_envOf (.inl howned) false) fun env henv => ?_
    split
    · next member hm =>
      obtain ⟨env, rfl, hm⟩ := Option.bind_eq_some_iff.mp hm
      exact plain_plainHead ((henv.2 env rfl).memberIn? hm) (by decide)
    · dsimp only
      split
      · next hn =>
        rw [eq_of_beq hn] at hname
        refine Meets.bind (meets_upHead hsite hparent hname) fun up hup => ?_
        cases up with
        | some head => exact hup head rfl
        | none => exact meets_fail _
      · exact meets_fail _

theorem meets_targetHead (hsite : m.siteAt? path = .ok (topology, site)) (name : String) :
    (m.targetHead site name).Meets (m.rules P).contract m.Plain := by
  obtain ⟨_, _, _, _, _, hl⟩ := siteAt?_eq_ok hsite
  unfold targetHead
  split
  · exact meets_fail _
  · next association ha =>
    have howned := isOwned_main hsite (hl.member association ha)
    refine Meets.bind (meets_envOf (.inl howned) false) fun env henv => ?_
    split
    · exact meets_fail _
    · next env =>
      split
      · next member hm => exact plain_plainHead ((henv.2 env rfl).memberIn? hm) (by decide)
      · exact meets_fail _

theorem meets_aliasEnv (hP : m.PathClosed P) (hsite : m.siteAt? path = .ok (topology, site))
    (hs : topology.scope? i = some scope)
    {binding : AliasBinding} (hb : (name, binding) ∈ scope.aliases) :
    (m.aliasEnv topology binding).Meets (m.rules P).contract m.OwnedAnswer := by
  refine Meets.bind (meets_aliasLink hP hsite hs hb) fun link hl => ?_
  split
  · next env he => exact ownedAnswer_some (hl.2 env he)
  · exact (meets_envOf (.inl hl.1) false).weaken fun env henv => henv.2

theorem meets_searchSources (hP : m.PathClosed P) (hsite : m.siteAt? path = .ok (topology, site))
    (hs : topology.scope? i = some scope) (name : String) (number : Nat)
    (aliases : List (String × AliasBinding)) (hsub : ∀ entry ∈ aliases, entry ∈ scope.aliases)
    {found : Option (NodeId × String)} (hf : ∀ pair, found = some pair → m.IsOwned pair.1) :
    (m.searchSources topology name number aliases found).Meets (m.rules P).contract
      fun result => ∀ pair, result = some pair → m.IsOwned pair.1 := by
  induction aliases generalizing found with
  | nil => exact hf
  | cons entry rest ih =>
    obtain ⟨tableAlias, binding⟩ := entry
    have hrest : ∀ entry ∈ rest, entry ∈ scope.aliases :=
      fun entry he => hsub entry (List.mem_cons_of_mem _ he)
    refine Meets.bind (meets_aliasEnv hP hsite hs (hsub _ List.mem_cons_self)) fun env henv => ?_
    split
    · exact ih hrest hf
    · next element he =>
      obtain ⟨env, rfl, he⟩ := Option.bind_eq_some_iff.mp he
      split
      · exact meets_fail _
      · refine ih hrest fun pair hp => ?_
        cases hp
        exact (henv env rfl).memberIn? he

theorem meets_sourceHead (hP : m.PathClosed P) (hsite : m.siteAt? path = .ok (topology, site))
    (name : String) : (m.sourceHead site topology name).Meets (m.rules P).contract m.Plain := by
  unfold sourceHead
  split
  · exact meets_fail _
  · next scope hscope =>
    obtain ⟨i, _, hs⟩ := Option.bind_eq_some_iff.mp hscope
    refine Meets.bind (meets_searchSources hP hsite hs name scope.number scope.aliases
      (fun _ he => he) fun pair hp => by cases hp) fun result hresult => ?_
    split
    · exact plain_bound (hresult _ rfl) ownedAnswer_none (by decide)
    · exact meets_fail _

theorem meets_queryHead (hP : m.PathClosed P) (hsite : m.siteAt? path = .ok (topology, site))
    (name : String) : (m.queryHead site topology name).Meets (m.rules P).contract m.Plain := by
  obtain ⟨links, _, _, hbuilt, _, _⟩ := siteAt?_eq_ok hsite
  unfold queryHead
  split
  · next member hm =>
    obtain ⟨owner, ho, hm⟩ := Option.bind_eq_some_iff.mp hm
    obtain ⟨scope, hscope, ho⟩ := Option.bind_eq_some_iff.mp ho
    obtain ⟨i, _, hs⟩ := Option.bind_eq_some_iff.mp hscope
    have hcarrier : ∀ owner, scope.elementsOwner = some owner → m.IsOwned owner :=
      fun owner he => isOwned_main hsite ((hbuilt.complete i scope hs).carrier owner he).1
    have howner : m.IsOwned owner := by
      split at ho
      · rcases eq_some_of_orElse ho with ho | ho
        · exact hcarrier owner ho
        · cases ho
          exact isOwned_main hsite .refl
      · exact hcarrier owner ho
    exact plain_plainHead (howner.memberIn? hm) (by decide)
  · split
    · exact meets_sourceHead hP hsite name
    · exact meets_fail _

/-- A filter without a link on its segment is a defect. -/
theorem defect_of_unlinkedFilter {outer : Path} {topology'' : Topology} {site'' : Site}
    {position : Nat} (hsite : m.siteAt? path = .ok (topology, site))
    (hbase : site.base = some (.segment outer position))
    (houter : m.siteAt? outer = .ok (topology', site'))
    (hother : m.siteAt? path' = .ok (topology'', site'')) (hh : site''.holder = site'.holder)
    (hr : m.Resolved topology'' site'' r) (hnone : r.links[position]? = none) :
    m.Defect (.unlinkedFilter position outer r.links.length) := by
  have hle := List.getElem?_eq_none_iff.mp hnone
  rcases hr.count with ⟨hnil, hnothing⟩ | hcount
  · rw [hnil]
    exact .unlinked hsite hbase houter hother hh hnothing
  · obtain ⟨_, hd, _, _, ha, _⟩ := siteAt?_eq_ok hsite
    obtain ⟨_, hd', _, _, ha', _⟩ := siteAt?_eq_ok houter
    have hmain : site.main = site'.main :=
      Except.ok.inj ((Site.pathDefinition_of_base hd ha hbase).symm.trans hd')
    obtain rfl := topology_eq_of_main hsite houter hmain
    obtain ⟨hkind, hsegments⟩ := Site.filtered_reference ha hbase ha'
    rw [hcount, linkCount, kind_eq_of_holder hother houter hh, hkind, hh] at hle ⊢
    rcases hsegments with ⟨list, href, hlt⟩ | ⟨href, hprop⟩
    · rw [segmentsOf, href] at hle
      exact absurd hlt (Nat.not_lt.mpr hle)
    · rw [segmentsOf, href] at hle ⊢
      exact .nested hsite hbase houter hprop href hle

theorem meets_baseEnv (hP : m.PathClosed P) (hp : P path)
    (hsite : m.siteAt? path = .ok (topology, site)) :
    (m.baseEnv site).Meets (m.rules P).contract m.OwnedAnswer := by
  have henvOf : ∀ {art : NodeId}, m.IsOwned art →
      (m.envOf art).Meets (m.rules P).contract m.OwnedAnswer :=
    fun ha => (meets_envOf (.inl ha) false).weaken fun env henv => henv.2
  unfold baseEnv
  split
  · exact ownedAnswer_none
  · next outer position hbase =>
    refine Meets.bind (meets_resolutionAt (hP.base path topology site _ hp hsite hbase))
      fun r hr => ?_
    obtain ⟨_, _, _, _, h₁, ⟨_, _, h₂⟩, hh, hres⟩ := resolved_of_resolves hr
    split
    · next hnone =>
      exact defect_of_unlinkedFilter hsite hbase h₁ h₂ hh hres hnone
    · next link hlink =>
      have hl := hres.links link (List.mem_of_getElem? hlink)
      split
      · next env he =>
        split
        · exact ownedAnswer_some (hl.2 env he)
        · exact henvOf hl.1
      · exact henvOf hl.1
  · next outer hbase =>
    refine Meets.bind (meets_resolutionAt (hP.base path topology site _ hp hsite hbase))
      fun r hr => ?_
    obtain ⟨_, _, _, _, _, _, _, hres⟩ := resolved_of_resolves hr
    split
    · next env he =>
      obtain ⟨link, hlink, he⟩ := Option.bind_eq_some_iff.mp he
      exact ownedAnswer_some ((hres.links link (List.mem_of_getLast? hlink)).2 env he)
    · next art _ ha => exact henvOf (hres.art art ha)
    · exact ownedAnswer_none

theorem meets_baseHead (hP : m.PathClosed P) (hp : P path)
    (hsite : m.siteAt? path = .ok (topology, site)) (name : String) {scope : Scope}
    (hs : scope ≠ .tableAlias ∧ scope ≠ .mixin) :
    (m.baseHead site name scope).Meets (m.rules P).contract m.Plain := by
  refine Meets.bind (meets_baseEnv hP hp hsite) fun env henv => ?_
  split
  · exact meets_fail _
  · next env =>
    split
    · next member hm => exact plain_plainHead ((henv env rfl).memberIn? hm) hs
    · exact meets_fail _

theorem meets_dynamicHead (hP : m.PathClosed P) (hp : P path)
    (hsite : m.siteAt? path = .ok (topology, site))
    (hname : m.firstName? site = some name) (segments : Nat) (dynamic : Dynamic) :
    (m.dynamicHead site topology name segments dynamic).Meets (m.rules P).contract m.Plain := by
  cases dynamic with
  | global => exact (meets_globalHead site name segments).weaken fun _ h => h.1
  | parent => exact meets_parentHead hsite hname
  | target => exact meets_targetHead hsite name
  | query => exact meets_queryHead hP hsite name
  | source => exact meets_sourceHead hP hsite name
  | expand => exact meets_baseHead hP hp hsite name (by decide)
  | inline => exact meets_baseHead hP hp hsite name (by decide)
  | refTarget => exact meets_baseHead hP hp hsite name (by decide)
  | nothing => exact meets_fail _

/-! ## The first segment -/

variable (m) in
/-- What holds of the first segment. -/
structure HeadFits (topology : Topology) (site : Site) (name : String) (segments : Nat)
    (head : Head) : Prop where
  owned : m.HeadOwned head
  source : site.context = .source → ∃ link scope env, head = .bound link scope env
  lexical : site.context.isLexical = true → m.doc.flag site.holder "param" = false →
    m.doc.flag site.holder "global" = false →
    Follows (m.nearest site topology name segments) head.scope head.env

/-- A head that was found in the enclosing queries is the nearest one. -/
theorem follows_of_finds {found : Option (Scope × Binding)} {head : Head}
    (h : m.Finds found (some head)) :
    m.HeadOwned head ∧ Follows found head.scope head.env := by
  cases found with
  | none => cases h
  | some pair =>
    obtain ⟨link, heq, hl⟩ := h
    cases heq
    exact ⟨hl, rfl, rfl⟩

theorem Plain.follows {head : Head} (h : m.Plain head) {found : Option (Scope × Binding)}
    (hf : m.Finds found none) : Follows found head.scope head.env := by
  cases found with
  | none => exact ⟨h.notAlias, h.notMixin⟩
  | some pair =>
    obtain ⟨link, heq, _⟩ := hf
    cases heq

variable (m) in
/-- What holds of the search in the enclosing queries, of which `found` is the nearest binding. -/
def BoundFits (found : Option (Scope × Binding)) : Option Head → Prop
  | some head => m.HeadOwned head ∧ Follows found head.scope head.env
  | none => m.Finds found none

/-- In the contexts whose names are looked up in the enclosing queries. -/
theorem meets_policyHead_lexical (hP : m.PathClosed P) (hp : P path)
    (hsite : m.siteAt? path = .ok (topology, site)) (hname : m.firstName? site = some name)
    (segments : Nat) (hlex : site.context.isLexical = true) :
    (m.policyHead site topology name segments).Meets (m.rules P).contract fun head =>
      m.HeadOwned head ∧ Follows (m.nearest site topology name segments) head.scope head.env := by
  have hbound : (m.boundHead site topology site.context.policy.lexical name segments).Meets
      (m.rules P).contract (m.BoundFits (m.nearest site topology name segments)) := by
    have hsearch := meets_lexicalHead (P := P) hP hsite name segments
    unfold Context.isLexical at hlex
    unfold boundHead
    cases hl : site.context.policy.lexical with
    | nothing | dollarOnly => rw [hl] at hlex; cases hlex
    | full | fullMixinsFirst | enclosing =>
      rw [hl] at hsearch
      refine Meets.bind hsearch fun found hfound => ?_
      cases found with
      | some head => exact follows_of_finds hfound
      | none =>
        refine (meets_dollarHead hsite name).weaken fun dollar hd => ?_
        cases dollar with
        | some head => exact ⟨(hd head rfl).owned, (hd head rfl).follows hfound⟩
        | none => exact hfound
  refine Meets.bind hbound fun bound hb => ?_
  cases bound with
  | some head => exact hb
  | none =>
    exact (meets_dynamicHead hP hp hsite hname segments _).weaken fun head h =>
      ⟨h.owned, h.follows hb⟩

/-- In all other contexts. -/
theorem meets_policyHead_plain (hP : m.PathClosed P) (hp : P path)
    (hsite : m.siteAt? path = .ok (topology, site)) (hname : m.firstName? site = some name)
    (segments : Nat) (hlex : site.context.isLexical = false) :
    (m.policyHead site topology name segments).Meets (m.rules P).contract fun head =>
      m.Plain head ∧ (site.context = .source → ∃ link scope env, head = .bound link scope env) := by
  have hdynamic := meets_dynamicHead hP hp hsite hname segments site.context.policy.dynamic
  unfold Context.isLexical at hlex
  cases hl : site.context.policy.lexical with
  | full | fullMixinsFirst | enclosing => rw [hl] at hlex; cases hlex
  | nothing =>
    have hhead : m.policyHead site topology name segments =
        m.dynamicHead site topology name segments site.context.policy.dynamic := by
      unfold policyHead
      dsimp only
      rw [hl]
      rfl
    rw [hhead]
    by_cases hsource : site.context = .source
    · rw [hsource]
      refine (meets_globalHead site name segments).weaken fun head h => ⟨h.1, fun _ => h.2 ?_⟩
      rw [hsource]
      decide
    · exact hdynamic.weaken fun head h => ⟨h, fun hc => absurd hc hsource⟩
  | dollarOnly =>
    have hsource : site.context ≠ .source := by
      intro hc
      rw [hc] at hl
      cases hl
    unfold policyHead
    dsimp only
    rw [hl]
    refine Meets.bind (meets_dollarHead hsite name) fun dollar hd => ?_
    cases dollar with
    | some head => exact ⟨hd head rfl, fun hc => absurd hc hsource⟩
    | none => exact hdynamic.weaken fun head h => ⟨h, fun hc => absurd hc hsource⟩

theorem source_not_lexical {context : Context} (h : context = .source) :
    context.isLexical = false := by
  rw [h]
  rfl

theorem meets_headOf (hP : m.PathClosed P) (hp : P path)
    (hsite : m.siteAt? path = .ok (topology, site))
    (hname : m.firstName? site = some name) (segments : Nat) :
    (m.headOf site topology name segments).Meets (m.rules P).contract
      (m.HeadFits topology site name segments) := by
  unfold headOf
  split
  · next hparam =>
    unfold paramHead
    split
    · next param hpm =>
      obtain ⟨params, hparams, hpm⟩ := Option.bind_eq_some_iff.mp hpm
      have howned := ((isOwned_main hsite .refl).prop? hparams).prop? hpm
      refine ⟨⟨howned, ownedAnswer_none⟩, fun _ => ⟨_, _, _, rfl⟩, fun _ hno => ?_⟩
      rw [hparam] at hno
      cases hno
    · exact meets_fail _
  · split
    · next hglobal =>
      refine (meets_globalHead site name segments).weaken fun head h => ?_
      refine ⟨h.1.owned, fun hc => h.2 (by rw [hc]; decide), fun _ _ hno => ?_⟩
      rw [hglobal] at hno
      cases hno
    · cases hlex : site.context.isLexical with
      | true =>
        refine (meets_policyHead_lexical hP hp hsite hname segments hlex).weaken fun head h => ?_
        refine ⟨h.1, fun hc => ?_, fun _ _ _ => h.2⟩
        rw [source_not_lexical hc] at hlex
        cases hlex
      | false =>
        refine (meets_policyHead_plain hP hp hsite hname segments hlex).weaken fun head h => ?_
        refine ⟨h.1.owned, h.2, fun hno => ?_⟩
        rw [hlex] at hno
        cases hno

/-! ## All segments -/

variable (m) in
/-- The links of a segment whose environment is known, and of the names that follow it. -/
def linksIn (link : Link) (next : String) (rest : List String) (env : NodeId) :
    Inquiry (List Link) :=
  match m.doc.memberIn? env next with
  | none => fail (.notFound next (m.placeText env))
  | some art => do
    let links ← m.followLinks next ⟨art, none⟩ rest
    return { link with env := some env } :: links

theorem meets_followLinks (name : String) {link : Link} (rest : List String)
    (hl : m.LinkOwned link) :
    (m.followLinks name link rest).Meets (m.rules P).contract
      fun links => links.length = rest.length + 1 ∧ ∀ link ∈ links, m.LinkOwned link := by
  induction rest generalizing name link with
  | nil => exact ⟨rfl, fun other ho => List.mem_singleton.mp ho ▸ hl⟩
  | cons next rest ih =>
    have hrest : ∀ env, m.IsOwned env → (m.linksIn link next rest env).Meets (m.rules P).contract
          fun links => links.length = (next :: rest).length + 1 ∧
            ∀ link ∈ links, m.LinkOwned link := by
      intro env he
      unfold linksIn
      split
      · exact meets_fail _
      · next art ha =>
        refine Meets.bind (ih next ⟨he.memberIn? ha, fun _ h => by cases h⟩) fun links hlinks => ?_
        refine ⟨by simp [hlinks.1], fun other ho => ?_⟩
        rcases List.mem_cons.mp ho with rfl | ho
        · exact ⟨hl.1, fun e heq => Option.some.inj heq ▸ he⟩
        · exact hlinks.2 other ho
    unfold followLinks
    dsimp only
    split
    · next env he => exact hrest env (hl.2 env he)
    · refine Meets.bind (meets_envOf (.inl hl.1) false) fun env he => ?_
      split
      · exact hrest _ (he.2 _ rfl)
      · exact meets_fail _

theorem meets_closeLinks (site : Site) (lastName : String) {links : List Link}
    (hl : ∀ link ∈ links, m.LinkOwned link) :
    (m.closeLinks site lastName links).Meets (m.rules P).contract
      fun result => result.length = links.length ∧ ∀ link ∈ result, m.LinkOwned link := by
  unfold closeLinks
  split
  · exact ⟨rfl, hl⟩
  · next last hlast =>
    have hmem := List.mem_of_getLast? hlast
    split
    · exact ⟨rfl, hl⟩
    · refine Meets.bind (meets_envOf (.inl (hl last hmem).1) false) fun env he => ?_
      split
      · exact meets_fail _
      · have hpos : 0 < links.length := List.length_pos_of_mem hmem
        refine ⟨by simp; omega, fun link hlink => ?_⟩
        rcases List.mem_append.mp hlink with hlink | hlink
        · exact hl link ((List.dropLast_sublist links).subset hlink)
        · rw [List.mem_singleton.mp hlink]
          exact ⟨(hl last hmem).1, he.2⟩

theorem names_of_mapM {segments : List NodeId} {names : List String}
    (h : segments.mapM m.segmentName = .ok names) :
    names.length = segments.length ∧
      ∀ i : Nat, names[i]? = segments[i]?.bind m.doc.segmentName? := by
  induction segments generalizing names with
  | nil =>
    cases h
    exact ⟨rfl, fun i => rfl⟩
  | cons segment rest ih =>
    rw [List.mapM_cons] at h
    simp only [Bind.bind, Except.bind] at h
    split at h
    · cases h
    · next name hn =>
      split at h
      · cases h
      · next tail ht =>
        cases h
        refine ⟨by simp [(ih ht).1], fun i => ?_⟩
        cases i with
        | succ i => exact (ih ht).2 i
        | zero =>
          unfold segmentName at hn
          split at hn
          · next name' hname =>
            cases hn
            simp [hname]
          · cases hn

theorem firstName?_of_names {rest : List String}
    (h : (m.segmentsOf site.holder).mapM m.segmentName = .ok (name :: rest)) :
    m.firstName? site = some name := by
  rw [firstName?, List.head?_eq_getElem?, ← (names_of_mapM h).2 0]
  rfl

variable (m) in
/-- The resolution of a reference whose first segment is known, and whose other segments have the
given names. -/
def resolutionFrom (site : Site) (name : String) (rest : List String) : Head → Inquiry Resolution
  | .unlinked scope =>
    return { links := [], art := none, parent := site.member <|> some site.main, scope, env := none,
             context := site.context }
  | .bound first scope env => do
    let links ← m.followLinks name first rest
    let links ← m.closeLinks site ((name :: rest).getLast?.getD name) links
    return { links, art := links.getLast?.map Link.art, parent := site.member <|> some site.main,
             scope, env, context := site.context }

theorem resolveReference_eq {rest : List String}
    (hnames : (m.segmentsOf site.holder).mapM m.segmentName = .ok (name :: rest))
    (topology : Topology) :
    m.resolveReference site topology =
      m.headOf site topology name (name :: rest).length >>= m.resolutionFrom site name rest := by
  rw [resolveReference, hnames]
  refine congrArg (m.headOf site topology name (name :: rest).length >>= ·) (funext fun head => ?_)
  cases head <;> rfl

/-- How a reference is resolved under a contract: first its first segment, then the others. -/
theorem meets_reference {c : Contract} (hfail : ∀ e, c.error (.model e)) {topology : Topology}
    {post : Resolution → Prop}
    (h : ∀ name rest, (m.segmentsOf site.holder).mapM m.segmentName = .ok (name :: rest) →
      (m.headOf site topology name (name :: rest).length).Meets c fun head =>
        (m.resolutionFrom site name rest head).Meets c post) :
    (m.resolveReference site topology).Meets c post := by
  cases hnames : (m.segmentsOf site.holder).mapM m.segmentName with
  | error e =>
    rw [resolveReference, hnames]
    exact hfail e
  | ok names =>
    cases names with
    | nil =>
      rw [resolveReference, hnames]
      exact hfail .emptyReference
    | cons name rest =>
      rw [resolveReference_eq hnames]
      exact Meets.bind (h name rest hnames) fun _ hhead => hhead

theorem meets_resolveReference (hP : m.PathClosed P) (hp : P path)
    (hsite : m.siteAt? path = .ok (topology, site)) (hkind : site.kind = .reference) :
    (m.resolveReference site topology).Meets (m.rules P).contract (m.Resolved topology site) := by
  have hcount : m.linkCount site = (m.segmentsOf site.holder).length := by rw [linkCount, hkind]
  refine meets_reference (fun _ => trivial) fun name rest hnames => ?_
  obtain ⟨hlength, _⟩ := names_of_mapM hnames
  have hname := firstName?_of_names hnames
  refine ((meets_headOf hP hp hsite hname _).both
    (found_headOf (vouches_anything topology) site name (name :: rest).length)
      (fun _ _ _ => trivial)
    fun _ _ _ => trivial).weaken fun head ⟨hhead, hgives, _⟩ => ?_
  have hlexical := hhead.lexical
  rw [hlength] at hlexical
  cases head with
  | unlinked scope =>
    refine ⟨by simp, fun art h => (by cases h),
      .inl ⟨rfl, hkind, name, scope, hname, hlength ▸ hgives⟩, rfl, fun _ hc => ?_,
      fun _ hlex hparam hglobal => ⟨name, hname, hlexical hlex hparam hglobal⟩⟩
    obtain ⟨_, _, _, heq⟩ := hhead.source hc
    cases heq
  | bound first scope env =>
    refine Meets.bind (meets_followLinks name rest hhead.owned) fun links hlinks => ?_
    refine Meets.bind (meets_closeLinks site _ hlinks.2) fun closed hclosed => ?_
    have hlen : closed.length = (m.segmentsOf site.holder).length := by
      rw [hclosed.1, hlinks.1, ← hlength]
      rfl
    refine ⟨hclosed.2, fun art ha => ?_, .inr (hlen.trans hcount.symm), rfl, fun _ _ hnil => ?_,
      fun _ hlex hparam hglobal => ⟨name, hname, hlexical hlex hparam hglobal⟩⟩
    · obtain ⟨link, hlink, rfl⟩ := Option.map_eq_some_iff.mp ha
      exact (hclosed.2 link (List.mem_of_getLast? hlink)).1
    · have hnil : closed = [] := hnil
      have hzero := hclosed.1
      rw [hnil, hlinks.1] at hzero
      cases hzero

theorem meets_resolveSite (hP : m.PathClosed P) (hp : P path)
    (hsite : m.siteAt? path = .ok (topology, site)) :
    (m.resolveSite site topology).Meets (m.rules P).contract (m.Resolved topology site) := by
  obtain ⟨_, _, _, _, _, hl⟩ := siteAt?_eq_ok hsite
  -- a member or a definition is its own resolution
  have hself : ∀ {node : NodeId} {parent : Option NodeId} {scope : Scope},
      m.doc.Within site.main node → site.kind ≠ .reference →
      (do
        let env ← m.envOf node
        return { links := [⟨node, env⟩], art := some node, parent, scope, env := none,
                 context := site.context } : Inquiry Resolution).Meets (m.rules P).contract
        (m.Resolved topology site) := by
    intro node parent scope hw hkind
    have howned := isOwned_main hsite hw
    refine Meets.bind (meets_envOf (.inl howned) false) fun env henv => ?_
    refine ⟨fun link hlink => ?_, ownedAnswer_some howned, .inr ?_, rfl, fun h => absurd h hkind,
      fun h => absurd h hkind⟩
    · rw [List.mem_singleton.mp hlink]
      exact ⟨howned, henv.2⟩
    · unfold linkCount
      split
      · next h => exact absurd h hkind
      · rfl
      · rfl
  unfold resolveSite
  split
  · next hk => exact hself .refl (by rw [hk]; decide)
  · next hk => exact hself hl.holder (by rw [hk]; decide)
  · next hk => exact meets_resolveReference hP hp hsite hk

end Sites

/-- The rules respect their theory. -/
theorem lawful_rules (hP : m.PathClosed P) : (m.rules P).Lawful := by
  refine ⟨fun path topology site hp hsite => ?_, fun node _ _ h => h, fun node _ howned _ => ?_,
    fun node h hnone => ?_⟩
  · exact (meets_resolveSite hP hp hsite).weaken fun r hr =>
      ⟨path, topology, site, hp, hsite, rfl, hr⟩
  · refine (meets_chainLink hP node).weaken fun next hnext => ?_
    cases next with
    | none => exact fun h => h
    | some next => exact ⟨.inl (hnext next rfl), fun type ht _ => ht (hnext next rfl)⟩
  · refine h.resolve_left fun howned => ?_
    rw [IsOwned, hnone] at howned
    cases howned

end Model

end SchemaRefs
