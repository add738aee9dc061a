import SchemaRefs.Proofs.CrossLinks
import SchemaRefs.Proofs.Policies

/-!
# The parents of members

The parent of a member is told in two ways. The resolution of its declaration has the node to which
the walk along the path came last that can own members (`Walk.host`); a prepared definition has
recorded the parents of the members that were found from the definition downwards, and of the mixins
of all queries (`Document.Recorded`). Walks go farther: to the result elements of inner queries, to
members of mixins and to what stands below properties without meaning.

* `member_parents_agree_where_recorded`: the resolution always has a parent. If the parent of the
  member is recorded, it is the same; else the session knows none;
* `result_elements_without_recorded_parent`: the elements of an inner query and those of a mixin
  have no recorded parent.
-/

namespace SchemaRefs

namespace Document

variable (doc : Document)

/-- The parent of a member is recorded when the definition is prepared: for members that are
declared by the definition on any level, and for mixins. -/
def Recorded (definition member parent : NodeId) : Prop :=
  doc.Declares definition definition member parent ∨
    parent ∈ doc.selectsOf definition ∧ doc.IsMixin parent member

end Document

namespace Walk

variable {doc : Document} {topology : Topology} {main : NodeId} {walk : Walk} {node parent : NodeId}
  {step : Step} {key : String}

/-! ## Walks onto members -/

theorem IsWalkTo.advance (hd : doc.isDefinition main = true) (h : IsWalkTo doc topology main walk)
    {child : NodeId} (hc : doc.container? child = some walk.node)
    (hs : doc.step? child = some step) :
    IsWalkTo doc topology main (walk.advance doc topology main step child) :=
  ⟨.step hc h.1, walkTo?_step hd h.1 hc hs h.2 rfl⟩

variable (doc topology main) in
/-- A walk along the path of its node from which members can be entered, whose parent is `top`. -/
structure Hosts (walk : Walk) (top : NodeId) : Prop where
  isWalkTo : IsWalkTo doc topology main walk
  context : walk.context = none
  memberMap : walk.memberMap = none
  host : walk.host = top

theorem advance_structure {child : NodeId} (hq : topology.queryOf? child = none)
    (hc : walk.context = none) :
    walk.advance doc topology main step child =
      walk.goTo step child (walk.leave.stepStructure doc topology main step child) := by
  rw [advance_eq, hq]
  dsimp only
  rw [hc]

theorem enterProperty_of_map {next : NodeId} {kind : MemberMap}
    (hkey : MemberMap.ofKey? key = some kind) (hobject : doc.isObject next = true) :
    walk.enterProperty doc topology main next key = { walk with memberMap := some kind } := by
  unfold enterProperty
  rw [hkey, Option.filter_some, if_pos hobject]

/-- A member is entered by its map. Its parent is the host of the walk. -/
theorem Hosts.member (hd : doc.isDefinition main = true) {top map member : NodeId} {name : String}
    {kind : MemberMap} (h : Hosts doc topology main walk top)
    (hkey : MemberMap.ofKey? key = some kind) (hmap : doc.prop? walk.node key = some map)
    (hm : (name, member) ∈ doc.entries map) (hq : topology.queryOf? map = none)
    (hq' : topology.queryOf? member = none) :
    ∃ walk', Hosts doc topology main walk' member ∧ walk'.node = member ∧
    walk'.memberParent = some top := by
  have hobject : doc.isObject map = true := by
    rw [Document.isObject, Document.value?_of_mem_entries hm]
  obtain ⟨hc, hs⟩ := Document.container?_of_prop? hmap
  obtain ⟨hc', hs'⟩ := Document.container?_of_mem_entries hm
  obtain ⟨inner, hinner⟩ : ∃ inner, inner = walk.advance doc topology main (.key key) map :=
    ⟨_, rfl⟩
  have hto : IsWalkTo doc topology main inner := hinner ▸ h.isWalkTo.advance hd hc hs
  rw [advance_structure hq h.context, stepStructure, show walk.leave.memberMap =
    none from h.memberMap] at hinner
  dsimp only at hinner
  rw [enterProperty_of_map hkey hobject] at hinner
  have hnode : inner.node = map := by rw [hinner]; rfl
  have hcontext : inner.context = none := by rw [hinner]; exact h.context
  have hto' := hto.advance hd (hnode ▸ hc') hs'
  rw [advance_structure hq' hcontext, stepStructure,
    show inner.leave.memberMap = some kind by rw [hinner]; rfl] at hto'
  refine ⟨_, ⟨hto', hcontext, rfl, rfl⟩, rfl, congrArg some ?_⟩
  rw [hinner]
  exact h.host

/-- Inside of a context, a walk stays inside of it until it comes to a query. -/
theorem isSome_context_of_within (hd : doc.isDefinition main = true)
    (h : IsWalkTo doc topology main walk) (hc : walk.context.isSome = true)
    (hw : doc.Within walk.node node)
    (hq : ∀ other, doc.Within other node → topology.queryOf? other = none) :
    ∃ walk', IsWalkTo doc topology main walk' ∧ walk'.node = node ∧
    walk'.context.isSome = true := by
  induction hw with
  | refl => exact ⟨walk, h, rfl, hc⟩
  | @step node parent hp hw ih =>
    obtain ⟨inner, hto, rfl, hin⟩ := ih fun other hother => hq other (.step hp hother)
    obtain ⟨step, hs, _⟩ := Document.follow?_container hp
    refine ⟨_, hto.advance hd hp hs, rfl, ?_⟩
    obtain ⟨context, hcontext⟩ := Option.isSome_iff_exists.mp hin
    rw [advance_eq, hq node .refl]
    dsimp only
    rw [hcontext]
    have hstep : ExpressionStep doc inner.leave context inner.segment inner.inSegments _ :=
      expressionStep_stepExpression context step inner.segment inner.inSegments
    exact (hstep.keeps hin).2.1

/-- A walk onto a query starts anew, with the query as the host. -/
theorem hosts_of_queryOf? (hd : doc.isDefinition main = true) {index : Nat}
    (hw : doc.Within main node) (hne : main ≠ node) (hq : topology.queryOf? node = some index) :
    ∃ walk, Hosts doc topology main walk node ∧ walk.node = node := by
  cases hw with
  | refl => exact absurd rfl hne
  | step hp hw =>
    obtain ⟨walk, hto, hn, _⟩ := walkTo?_spec topology hd hw
    obtain ⟨step, hs, _⟩ := Document.follow?_container hp
    have hwalk : IsWalkTo doc topology main walk := ⟨hn ▸ hw, hn ▸ hto⟩
    refine ⟨_, ⟨hwalk.advance hd (hn ▸ hp) hs, ?_, ?_, ?_⟩, rfl⟩
    all_goals
      rw [advance_eq, hq]
      rfl

theorem ofKey?_of_mem_memberKeys (h : key ∈ Document.memberKeys) :
    ∃ kind, MemberMap.ofKey? key = some kind := by
  simp only [Document.memberKeys, List.mem_cons, List.not_mem_nil, or_false] at h
  rcases h with rfl | rfl | rfl | rfl <;> exact ⟨_, rfl⟩

variable (doc topology main) in
/-- The parts of a member with members of their own are entered with the right host, unless they
start a context. -/
theorem enterProperty_of_partTop? {part partTop : NodeId}
    (h : Document.partTop? key walk.host part = some partTop) :
    (walk.enterProperty doc topology main part key).context.isSome = true ∨
      walk.enterProperty doc topology main part key = { walk with host := partTop } := by
  unfold Document.partTop? at h
  split at h
  · next hkey =>
    subst hkey
    cases h
    exact .inr rfl
  · split at h
    · next hkey =>
      cases h
      rcases hkey with rfl | rfl
      · have heq : walk.enterProperty doc topology main part "targetAspect" =
            if doc.isRefLike part then walk.enter .targetAspect
            else { walk with host := part } := rfl
        rw [heq]
        split
        · exact .inl rfl
        · exact .inr rfl
      · exact .inr rfl
    · cases h

/-- The walk along the path of a member knows the parent that declares it, unless it has come into a
context. -/
theorem Hosts.declared (hd : doc.isDefinition main = true) {owner top member : NodeId}
    (h : Hosts doc topology main walk top) (hn : walk.node = owner)
    (hdecl : doc.Declares owner top member parent)
    (hq : ∀ other, doc.Within other member → topology.queryOf? other = none) :
    ∃ walk', IsWalkTo doc topology main walk' ∧ walk'.node = member ∧
      (walk'.context = none → walk'.memberParent = some parent) := by
  induction hdecl generalizing walk with
  | direct hkey hmap hm =>
    obtain ⟨kind, hkind⟩ := ofKey?_of_mem_memberKeys hkey
    have hw := Document.within_of_container? (Document.container?_of_mem_entries hm).1
    obtain ⟨walk', hhosts, hnode, hparent⟩ :=
      h.member hd hkind (hn ▸ hmap) hm (hq _ hw) (hq _ .refl)
    exact ⟨walk', hhosts.isWalkTo, hnode, fun _ => hparent⟩
  | inner hkey hmap hm hdecl ih =>
    obtain ⟨kind, hkind⟩ := ofKey?_of_mem_memberKeys hkey
    have hw := Document.within_of_container? (Document.container?_of_mem_entries hm).1
    obtain ⟨walk', hhosts, hnode, _⟩ :=
      h.member hd hkind (hn ▸ hmap) hm (hq _ (hw.trans hdecl.within.1)) (hq _ hdecl.within.1)
    exact ih hhosts hnode hq
  | @part owner top part partTop member parent key htop hpart hdecl ih =>
    obtain ⟨hc, hs⟩ := Document.container?_of_prop? (Document.prop?_of_objectProp? hpart)
    obtain ⟨inner, hinner⟩ : ∃ inner, inner = walk.advance doc topology main (.key key) part :=
      ⟨_, rfl⟩
    have hto : IsWalkTo doc topology main inner := hinner ▸ h.isWalkTo.advance hd (hn ▸ hc) hs
    rw [advance_structure (hq part hdecl.within.1) h.context, stepStructure,
      show walk.leave.memberMap = none from h.memberMap] at hinner
    dsimp only at hinner
    have hnode : inner.node = part := by rw [hinner]; rfl
    have htop : Document.partTop? key walk.leave.host part = some partTop := by
      rw [show walk.leave.host = top from h.host]
      exact htop
    rcases enterProperty_of_partTop? doc topology main htop with hcontext | hafter
    · -- the whole part is one reference
      obtain ⟨walk', hto', hnode', hcontext'⟩ :=
        isSome_context_of_within hd hto (by rw [hinner]; exact hcontext) (hnode ▸ hdecl.within.1) hq
      exact ⟨walk', hto', hnode', fun hnone => by rw [hnone] at hcontext'; cases hcontext'⟩
    · rw [hafter] at hinner
      refine ih ⟨hto, ?_, ?_, ?_⟩ hnode hq
      · rw [hinner]; exact h.context
      · rw [hinner]; exact h.memberMap
      · rw [hinner]; rfl

theorem queryOf?_around_declared {links : List TopologyLink} (hb : doc.Built main topology links)
    {member : NodeId} (h : doc.Declares main main member parent) (other : NodeId)
    (hw : doc.Within other member) : topology.queryOf? other = none := by
  refine Option.eq_none_iff_forall_ne_some.mpr fun i hi => ?_
  obtain ⟨key, child, hkey, hchild, hin, _⟩ := h.exists_prop?
  obtain ⟨query, hq, hquery⟩ := hb.root other i (hb.queryOf?_eq_some_iff.mp hi)
  obtain ⟨key', hkey', hprop⟩ := Document.prop?_of_query? hq
  obtain ⟨rfl, _⟩ := Document.prop?_unique hchild hprop hin (hquery.trans hw)
  rcases hkey' with rfl | rfl <;> exact absurd hkey (by decide)

/-- The walk along the path of a member knows the recorded parent, unless it has come into a
context. -/
theorem memberParent_of_recorded {options : Options} {links : List TopologyLink}
    (hd : doc.isDefinition main = true)
    (hb : doc.buildTopology options main = .ok (topology, links)) {member : NodeId}
    (h : doc.Recorded main member parent) :
    ∃ walk, IsWalkTo doc topology main walk ∧ walk.node = member ∧
      (walk.context = none → walk.memberParent = some parent) := by
  have hbuilt := Document.built_buildTopology hb
  rcases h with hdecl | ⟨hselect, mixins, name, hmixins, hmember⟩
  · have hstart : Hosts doc topology main (start doc main) main :=
      ⟨⟨.refl, walkTo?_definition hd⟩, rfl, rfl, rfl⟩
    exact hstart.declared hd rfl hdecl (queryOf?_around_declared hbuilt hdecl)
  · obtain ⟨i, scope, hs, rfl⟩ := Document.scope_of_mem_selectsOf
      (Document.enumerates_buildTopology hb) hselect
    have hnumber := (hbuilt.mem_of_scope hs).2
    obtain ⟨hin, hlt⟩ := hbuilt.within_of_mem hnumber
    obtain ⟨walk, hhosts, hn⟩ := hosts_of_queryOf? hd hin (Nat.ne_of_lt hlt)
      (hbuilt.queryOf?_eq_some_iff.mpr hnumber)
    have hnone : ∀ node, doc.Within mixins node → topology.queryOf? node = none :=
      fun _ => hbuilt.queryOf?_of_unsearched hs (by decide) hmixins
    have hw := Document.within_of_container? (Document.container?_of_mem_entries hmember).1
    have hkey : MemberMap.ofKey? "mixin" = some .mixin := rfl
    obtain ⟨walk', hhosts', hn', hparent⟩ :=
      hhosts.member hd hkey (hn ▸ hmixins) hmember (hnone mixins .refl) (hnone member hw)
    exact ⟨walk', hhosts'.isWalkTo, hn', fun _ => hparent⟩

/-! ## Every member has a parent -/

/-- A walk that has passed a member knows its parent. -/
def KnowsParent (walk : Walk) : Prop :=
  walk.member.isSome = true → walk.memberParent.isSome = true

theorem KnowsParent.advance {next : NodeId} (h : walk.KnowsParent) :
    (walk.advance doc topology main step next).KnowsParent := by
  obtain ⟨after, hs, heq⟩ := stepped_advance doc topology main next walk step
  rw [heq]
  cases hs with
  | query => exact h
  | member => exact fun _ => rfl
  | position => exact h
  | property _ _ _ hp => cases hp <;> exact h
  | expression _ _ he => cases he <;> exact h

variable (topology) in
theorem knowsParent_of_isWalkTo (hd : doc.isDefinition main = true) (hw : doc.Within main node) :
    ∃ walk, IsWalkTo doc topology main walk ∧ walk.node = node ∧ walk.KnowsParent := by
  induction hw with
  | refl => exact ⟨start doc main, ⟨.refl, walkTo?_definition hd⟩, rfl, fun h => by cases h⟩
  | step hc _ ih =>
    obtain ⟨walk, hto, rfl, hknows⟩ := ih
    obtain ⟨step, hs, _⟩ := Document.follow?_container hc
    exact ⟨_, hto.advance hd hc hs, rfl, hknows.advance⟩

theorem IsWalkTo.unique {walk' : Walk} (h : IsWalkTo doc topology main walk)
    (h' : IsWalkTo doc topology main walk') (hn : walk.node = walk'.node) : walk = walk' :=
  Option.some.inj (h.2.symm.trans (hn ▸ h'.2))

/-- What it takes for the declaration of a member to stand at the end of a walk. -/
theorem finish_eq_member {path : Path} {site : Site} (h : walk.finish doc main path = .ok site)
    (hkind : site.kind = .member) :
    walk.context = none ∧ walk.member = some walk.node ∧ site.memberParent = walk.memberParent := by
  unfold finish at h
  split at h
  · next hc =>
    split at h
    · cases h
      cases hkind
    · split at h
      · next hm =>
        cases h
        exact ⟨hc, eq_of_beq hm, rfl⟩
      · split at h
        · split at h <;> cases h
        · cases h
  · dsimp only at h
    split at h
    · cases h
      cases hkind
    · split at h
      · cases h
        cases hkind
      · split at h
        · cases h
          cases hkind
        · cases h

end Walk

/-- The parent of a member is known at its path. If one is recorded, it is the same. -/
theorem Site.parent_of_member {doc : Document} {topology : Topology} {options : Options}
    {links : List TopologyLink} {definition node : NodeId} {site : Site}
    (hb : doc.buildTopology options definition = .ok (topology, links))
    (ho : doc.owner? node = some definition)
    (ha : Site.analyze doc topology (doc.pathOf node) = .ok site) (hkind : site.kind = .member) :
    ∃ parent, site.memberParent = some parent ∧ ∀ other, doc.Recorded definition node other →
    other = parent := by
  obtain ⟨hd, hw⟩ := Document.owner?_eq_some_iff.mp ho
  obtain ⟨walk, hto, rfl, hknows⟩ := Walk.knowsParent_of_isWalkTo topology hd hw
  rw [Site.analyze_pathOf ho hto.2] at ha
  obtain ⟨hcontext, hmember, hparent⟩ := Walk.finish_eq_member ha hkind
  obtain ⟨parent, heq⟩ := Option.isSome_iff_exists.mp (hknows (by rw [hmember]; rfl))
  refine ⟨parent, hparent.trans heq, fun other hother => ?_⟩
  obtain ⟨walk', hto', hn, hrecorded⟩ := Walk.memberParent_of_recorded hd hb hother
  obtain rfl := hto'.unique hto hn
  exact Option.some.inj ((hrecorded hcontext).symm.trans heq)

namespace Model

open Inquiry CacheM

variable {m : Model} {s : Cache}

/-! ## Resolutions of declarations -/

/-- A resolution that looks like that of a member comes from a member, and has its parent. -/
def DeclaresMember (site : Site) (r : Resolution) : Prop :=
  r.context = .member → r.scope = .parent → site.kind = .member ∧ r.parent = site.memberParent

theorem declaresMember_resolveSite {path : Path} {topology : Topology} {site : Site}
    (hsite : m.siteAt? path = .ok (topology, site)) :
    (m.resolveSite site topology).Meets anything (DeclaresMember site) := by
  unfold resolveSite
  split
  · exact Meets.bind (meets_answering _) fun env _ _ hscope => by cases hscope
  · next hk => exact Meets.bind (meets_answering _) fun env _ _ _ => ⟨hk, rfl⟩
  · next hk =>
    obtain ⟨_, _, _, _, ha, _⟩ := siteAt?_eq_ok hsite
    have hne := Site.context_ne_member ha hk
    exact (keepsPolicy_resolveReference topology hne).weaken fun r hr hcontext =>
      absurd (hr.context.symm.trans hcontext) hne

/-- Every session finds the parent of a member at the path. -/
theorem exists_site_of_inspect {path : Path} {r : Resolution} (hs : m.Reachable s)
    (hr : (exec (m.inspect path) s).1 = .ok r) (hcontext : r.context = .member)
    (hscope : r.scope = .parent) :
    ∃ topology site, m.siteAt? path = .ok (topology, site) ∧ site.kind = .member ∧
      r.parent = site.memberParent := by
  obtain ⟨topology, site, hsite, _, path', topology', site', hsite', hholder, hdecl⟩ :=
    (governs_sites declaresMember_resolveSite).resolves hs trivial hr
  obtain ⟨hkind, hparent⟩ := hdecl hcontext hscope
  -- the resolution may have been found on another path to the same member
  have hmain := main_eq_of_holder hsite hsite' hholder.symm
  obtain rfl := topology_eq_of_main hsite hsite' hmain
  obtain ⟨_, hd, _, _, ha, _⟩ := siteAt?_eq_ok hsite
  obtain ⟨_, hd', _, _, ha', _⟩ := siteAt?_eq_ok hsite'
  exact ⟨topology, site, hsite, (kind_eq_of_holder hsite hsite' hholder.symm).trans hkind,
    hparent.trans (Site.memberParent_of_holder (hmain ▸ hd') hd ha' ha hholder)⟩

/-! ## Recorded parents -/

/-- A session knows the recorded parents, and no others. -/
theorem parentOf_eq_iff (hs : Orderly m s) {definition member : NodeId} {topology : Topology}
    {links : List TopologyLink} (ho : m.doc.owner? member = some definition)
    (hb : m.doc.buildTopology m.options definition = .ok (topology, links))
    {value : Option NodeId} :
    (exec (m.parentOf member) s).1 = .ok value ↔
      ∀ parent, value = some parent ↔ m.doc.Recorded definition member parent := by
  obtain ⟨t, hfacts, heq⟩ := exec_preparedFact hs .parent ho hb
  rw [parentOf, heq, Except.ok.injEq, Option.ext_iff]
  refine forall_congr' fun parent => ?_
  rw [hfacts.parent member parent ho, (Document.linked_buildTopology hb).parents member parent]
  exact iff_comm

/-- The resolution of a member at its own path has a parent. If the parent of the member is
recorded, it is this one and the session knows it; if not, the session knows none. -/
theorem member_parents_agree_where_recorded {m : Model} {s : Cache} (hs : m.Reachable s)
    {definition node : NodeId} {r : Resolution} (ho : m.doc.owner? node = some definition)
    (hr : (exec (m.inspect (m.doc.pathOf node)) s).1 = .ok r) (hcontext : r.context = .member)
    (hscope : r.scope = .parent) :
    ∃ parent, r.parent = some parent ∧
      ((m.doc.Recorded definition node parent ∧ (exec (m.parentOf node) s).1 = .ok (some parent)) ∨
        ((∀ other, ¬ m.doc.Recorded definition node other) ∧
          (exec (m.parentOf node) s).1 = .ok none)) := by
  obtain ⟨topology, site, hsite, hkind, hparent⟩ := exists_site_of_inspect hs hr hcontext hscope
  obtain ⟨links, hd, hb, _, ha, _⟩ := siteAt?_eq_ok hsite
  rw [Document.pathDefinition_pathOf ho] at hd
  cases hd
  obtain ⟨parent, hsome, hunique⟩ := Site.parent_of_member hb ho ha hkind
  have horderly := (settled_of_reachable hs).agrees.orderly
  refine ⟨parent, hparent.trans hsome, ?_⟩
  by_cases hrecorded : ∃ other, m.doc.Recorded site.main node other
  · obtain ⟨other, hother⟩ := hrecorded
    obtain rfl := hunique other hother
    refine .inl ⟨hother, (parentOf_eq_iff horderly ho hb).mpr fun other' => ?_⟩
    exact ⟨fun h => Option.some.inj h ▸ hother, fun h => congrArg some (hunique other' h).symm⟩
  · rw [not_exists] at hrecorded
    refine .inr ⟨hrecorded, (parentOf_eq_iff horderly ho hb).mpr fun other => ?_⟩
    exact ⟨fun h => (by cases h), fun h => absurd h (hrecorded other)⟩

/-! ### A query in a query -/

/-- A view on a query of its own, which claims its result, with a mixin that has elements. -/
def layeredModel : Model :=
  ⟨.ofDefinitions [
    ("E", .object [("elements", .object [("a", .object [])])]),
    ("V", .object [
      ("query", .object [("SELECT", .object [
        ("from", .object [
          ("SELECT", .object [
            ("from", .object [("ref", .array [.string "E"])]),
            ("columns", .array [.object [("ref", .array [.string "a"])]]),
            ("elements", .object [("a", .object [])])]),
          ("as", .string "x")]),
        ("mixin", .object [("m", .object [("elements", .object [("z", .object [])])])]),
        ("columns", .array [.object [("ref", .array [.string "a"])]])])]),
      ("elements", .object [("a", .object [])])])], {}⟩

/-- The resolution of a member, with the node that has its elements. -/
def memberResolution (member : NodeId) (env : Option NodeId) (parent : NodeId) : Resolution :=
  { links := [⟨member, env⟩], art := some member, parent := some parent, scope := .parent,
    env := none, context := .member }

/-- The parent of the mixin is recorded: it is the outer query. That of the element in the inner
query is not. -/
theorem layered_parents_agree :
    (exec (layeredModel.inspect (layeredModel.doc.pathOf 21)) Cache.empty).1 =
        .ok (memberResolution 21 (some 21) 7) ∧
      layeredModel.doc.Recorded 5 21 7 ∧
      (exec (layeredModel.parentOf 21) Cache.empty).1 = .ok (some 7) ∧
      (exec (layeredModel.inspect (layeredModel.doc.pathOf 18)) Cache.empty).1 =
        .ok (memberResolution 18 none 9) ∧
      (∀ other, ¬ layeredModel.doc.Recorded 5 18 other) := by
  have hmixin : (exec (layeredModel.inspect (layeredModel.doc.pathOf 21)) Cache.empty).1 =
      .ok (memberResolution 21 (some 21) 7) := eq_ok_of_toOption (by decide +kernel)
  have helement : (exec (layeredModel.inspect (layeredModel.doc.pathOf 18)) Cache.empty).1 =
      .ok (memberResolution 18 none 9) := eq_ok_of_toOption (by decide +kernel)
  have hknown : (exec (layeredModel.parentOf 21) Cache.empty).1 = .ok (some 7) :=
    eq_ok_of_toOption (by decide +kernel)
  have hunknown : (exec (layeredModel.parentOf 18) Cache.empty).1 = .ok none :=
    eq_ok_of_toOption (by decide +kernel)
  have howner : ∀ node ∈ [18, 21], layeredModel.doc.owner? node = some 5 := by decide +kernel
  refine ⟨hmixin, ?_, hknown, helement, ?_⟩
  · obtain ⟨parent, hparent, h⟩ :=
      member_parents_agree_where_recorded .new (howner 21 (by decide)) hmixin rfl rfl
    cases hparent
    rcases h with h | h
    · exact h.1
    · rw [hknown] at h
      cases h.2
  · obtain ⟨parent, hparent, h⟩ :=
      member_parents_agree_where_recorded .new (howner 18 (by decide)) helement rfl rfl
    rcases h with h | h
    · rw [hunknown] at h
      cases h.2
    · exact h.1

/-- The element of the inner query and that of the mixin have parents by their resolutions, but no
recorded ones. -/
theorem result_elements_without_recorded_parent :
    (exec (layeredModel.inspect (layeredModel.doc.pathOf 18)) Cache.empty).1 =
        .ok (memberResolution 18 none 9) ∧
      (exec (layeredModel.parentOf 18) Cache.empty).1 = .ok none ∧
      (exec (layeredModel.inspect (layeredModel.doc.pathOf 23)) Cache.empty).1 =
        .ok (memberResolution 23 none 21) ∧
      (exec (layeredModel.parentOf 23) Cache.empty).1 = .ok none := by
  refine ⟨eq_ok_of_toOption ?_, eq_ok_of_toOption ?_, eq_ok_of_toOption ?_, eq_ok_of_toOption ?_⟩
  all_goals decide +kernel

end Model

end SchemaRefs
