import SchemaRefs.Proofs.ValidWalks

/-!
# Which scopes a context admits

`Context.admits` is the table of scopes in which the first segment of a reference may be found, one
row per context. Every answer of a session keeps to it, unless the reference asks for a parameter or
a definition (`scope_admitted_by_context`): what an enclosing query binds and what starts with `$`
comes first, and only the rest is looked up where the context says (`FoundBy`).
-/

namespace SchemaRefs

/-! ## The table -/

/-- The scopes that a context admits for the first segment of a reference. -/
def Context.admits : Context → List Scope
  | .type => [.global, .builtin]
  | .includes | .target | .targetAspect | .source => [.global]
  | .keys => [.target]
  | .excluding => [.source]
  | .expand => [.expand, .selfRef, .magic]
  | .inline => [.inline, .selfRef, .magic]
  | .refWhere => [.refTarget, .selfRef, .magic]
  | .onCondition | .annotated | .calculated => [.parent, .selfRef, .magic]
  | .queryOn => [.query, .selfRef, .magic]
  | .mixinOn | .joinOn | .filter | .columns | .having | .groupBy | .orderByExpr =>
    [.tableAlias, .mixin, .source, .selfRef, .magic]
  | .orderBy => [.tableAlias, .mixin, .source, .query, .selfRef, .magic]
  | .orderBySet => [.tableAlias, .mixin, .query, .selfRef, .magic]
  | .orderBySetExpr => [.tableAlias, .mixin, .selfRef, .magic]
  | .member => []

/-- The contexts in which a name that starts with `$` is a name like any other. -/
def Context.ignoresDollar : List Context :=
  [.type, .includes, .target, .targetAspect, .source, .keys, .excluding]

theorem FoundBy.admitted {context : Context} {name : String} {scope : Scope}
    (h : FoundBy context name scope) (hc : context ≠ .member) : scope ∈ context.admits := by
  have hlexical : ∀ context : Context, ∀ scope ∈ context.policy.lexical.scopes,
      scope ∈ context.admits := by
    intro context
    cases context <;> decide
  have hdynamic : ∀ context : Context, context ≠ .member →
      ∀ scope ∈ context.policy.dynamic.scopes context, scope ∈ context.admits := by
    intro context
    cases context <;> decide
  rcases h with h | h
  · exact hlexical context scope h
  · exact hdynamic context hc scope h.1

theorem FoundBy.dollar {context : Context} {name : String} {scope : Scope}
    (h : FoundBy context name scope) (hc : context ≠ .member) (hi : context ∉ Context.ignoresDollar)
    (hd : isDollarName name = true) : scope ∈ [Scope.tableAlias, .mixin, .selfRef, .magic] := by
  have hlexical : ∀ lexical : Lexical, ∀ scope ∈ lexical.scopes,
      scope ∈ [Scope.tableAlias, .mixin, .selfRef, .magic] := by
    intro lexical
    cases lexical <;> decide
  have hknown : context.policy.lexical ≠ .nothing := by
    revert hc hi
    cases context <;> decide
  rcases h with h | h
  · exact hlexical _ scope h
  · rw [h.2 hknown] at hd
    cases hd

/-! ## References have a context of their own -/

namespace Walk

variable {doc : Document} {topology : Topology} {main next : NodeId} {walk : Walk}
  {context : Context}

/-- The walk does not stand in the context of member declarations. -/
def Refers (walk : Walk) : Prop :=
  walk.context ≠ some .member

theorem refers_start : (start doc main).Refers :=
  fun h => by cases h

theorem refers_enter (walk : Walk) (h : context ≠ .member) :
    (walk.enter context).Refers :=
  fun hc => h (Option.some.inj hc)

theorem conditionContext_ne_member (topology : Topology) (main : NodeId) (walk : Walk) :
    (walk.conditionContext topology main).1 ≠ .member := by
  have hmixin : Context.mixinOn ≠ .member := by decide
  have hon : Context.onCondition ≠ .member := by decide
  have hquery : Context.queryOn ≠ .member := by decide
  unfold conditionContext
  split
  · exact hmixin
  · split
    · exact hon
    · split
      · dsimp only
        split
        · exact hquery
        · exact hon
      · split
        · exact hquery
        · exact hon

theorem queryContext?_ne_member (walk : Walk) (key : String) :
    walk.queryContext? key ≠ some .member := by
  unfold queryContext?
  split
  case h_6 => split <;> decide
  all_goals decide

theorem nested_ne_member (h : context ≠ .member) : context.nested ≠ .member := by
  revert h
  cases context <;> decide

theorem Refers.enterProperty (h : walk.Refers) (key : String) :
    (walk.enterProperty doc topology main next key).Refers := by
  unfold Walk.enterProperty
  split
  · exact h
  · split
    · exact refers_enter _ (by decide)
    · exact refers_enter _ (by decide)
    · split
      · exact refers_enter _ (by decide)
      · exact h
    · split
      · exact refers_enter _ (by decide)
      · exact h
    · exact h
    · exact h
    · exact refers_enter _ (by decide)
    · exact refers_enter _ (conditionContext_ne_member topology main walk)
    · exact refers_enter _ (by decide)
    · exact refers_enter _ (by decide)
    · split
      · exact refers_enter _ (by decide)
      · split
        · unfold Walk.enterQueryProperty
          split
          · next context hc =>
            exact refers_enter _ fun hm => queryContext?_ne_member walk _ (hm ▸ hc)
          · split <;> exact h
        · exact h

theorem Refers.stepStructure (h : walk.Refers) (step : Step) :
    (walk.stepStructure doc topology main step next).Refers := by
  unfold Walk.stepStructure
  split
  · exact h
  · split
    · exact h
    · exact h.enterProperty _

theorem Refers.stepExpression (h : walk.Refers) (hc : context ≠ .member)
    (step : Step) (atSegment : Option Nat) (atSegments : Bool) :
    (walk.stepExpression doc context step atSegment atSegments).Refers := by
  have hitems : ∀ {context : Context}, context ≠ .member →
      (if (doc.refPath? walk.node).isSome then
        { walk with base := some (.column walk.trail) }.enter context else walk).Refers := by
    intro context hc
    split
    · exact refers_enter _ hc
    · exact h
  have hnested : (if context.nested ≠ context then walk.enter context.nested else walk).Refers := by
    split
    · exact refers_enter _ (nested_ne_member hc)
    · exact h
  unfold Walk.stepExpression
  split
  · split <;> exact h
  · split
    · split
      · exact refers_enter _ (by decide)
      · exact h
    · split
      · exact h
      · exact hitems (by decide)
      · exact hitems (by decide)
      · exact refers_enter _ (by decide)
      · exact hnested
      · exact hnested
      · exact hnested
      · split
        · exact refers_enter _ (by decide)
        · split
          · exact refers_enter _ (by decide)
          · exact h

theorem Refers.advance (h : walk.Refers) (step : Step) :
    (walk.advance doc topology main step next).Refers := by
  have hleave : walk.leave.Refers := h
  rw [advance_eq]
  split
  · exact fun h => by cases h
  · split
    · have hs : (walk.leave.stepStructure doc topology main step next).Refers :=
        hleave.stepStructure step
      exact hs
    · next context hc =>
      have hs : (walk.leave.stepExpression doc context step walk.segment walk.inSegments).Refers :=
        hleave.stepExpression (fun hm => h (hm ▸ hc)) step walk.segment walk.inSegments
      exact hs

end Walk

/-- References do not stand in the context of member declarations. -/
theorem Site.context_ne_member {doc : Document} {topology : Topology} {path : Path} {site : Site}
    (h : Site.analyze doc topology path = .ok site) (hkind : site.kind = .reference) :
    site.context ≠ .member := by
  obtain ⟨main, hd⟩ := Site.pathDefinition_of_analyze h
  obtain ⟨walk, hrefers, rfl⟩ := Site.here_of_analyze hd h Walk.refers_start
    fun walk step next hP _ => Walk.Refers.advance hP step
  rw [Walk.here, Walk.site] at hkind ⊢
  dsimp only at hkind ⊢
  cases hc : walk.context with
  | none =>
    rw [Walk.kindHere, hc] at hkind
    dsimp only at hkind
    split at hkind <;> cases hkind
  | some context => exact fun hm => hrefers (hc.trans (congrArg some hm))

namespace Model

open Inquiry

variable {m : Model} {site : Site}

/-! ## The scope of the first segment -/

/-- In a context of definitions, a reference that asks for no parameter names a definition. -/
theorem headOf_of_isGlobal (topology : Topology) (name : String) (hc : site.context.isGlobal = true)
    (hp : m.doc.flag site.holder "param" = false) (segments : Nat) :
    m.headOf site topology name segments = m.globalHead site name segments := by
  have hpolicy : ∀ context : Context, context.isGlobal = true →
      context.policy.lexical = .nothing ∧ context.policy.dynamic = .global := by
    intro context
    cases context <;> decide
  obtain ⟨hlexical, hdynamic⟩ := hpolicy _ hc
  unfold headOf
  rw [hp]
  split
  · next h => cases h
  · split
    · rfl
    · unfold policyHead
      dsimp only
      rw [hlexical, hdynamic]
      rfl

/-! ## References -/

variable (m) in
/-- The scope of a resolution is one of those that its context admits. -/
structure ScopeAdmitted (holder : NodeId) (r : Resolution) : Prop where
  admitted : r.scope ∈ r.context.admits
  /-- A name that starts with `$` is not looked up where the context says. -/
  dollar : r.context ∉ Context.ignoresDollar →
    ∀ name, (m.segmentsOf holder).head?.bind m.doc.segmentName? = some name →
    isDollarName name = true →
      r.scope ∈ [Scope.tableAlias, .mixin, .selfRef, .magic]

variable (m) in
/-- The resolution has the context of the site, and a scope that is admitted there. -/
structure KeepsPolicy (site : Site) (r : Resolution) : Prop where
  context : r.context = site.context
  scope : site.kind = .reference → m.doc.flag site.holder "param" = false →
    m.doc.flag site.holder "global" = false → m.ScopeAdmitted site.holder r

theorem scopeAdmitted_of_foundBy {name : String} {r : Resolution}
    (h : FoundBy site.context name r.scope) (hr : r.context = site.context)
    (hc : site.context ≠ .member)
    (hname : (m.segmentsOf site.holder).head?.bind m.doc.segmentName? = some name) :
    m.ScopeAdmitted site.holder r := by
  refine ⟨hr ▸ h.admitted hc, fun hi other hother hd => ?_⟩
  rw [hname] at hother
  cases hother
  exact h.dollar hc (hr ▸ hi) hd

theorem foundBy_headOf (site : Site) (topology : Topology) (name : String) (segments : Nat) :
    (m.headOf site topology name segments).Meets anything fun head =>
      m.doc.flag site.holder "param" = false → m.doc.flag site.holder "global" = false →
        FoundBy site.context name head.scope :=
  (found_headOf (vouches_anything topology) site name segments).weaken fun _ hh => hh.2

theorem keepsPolicy_resolveReference (topology : Topology) (hc : site.context ≠ .member) :
    (m.resolveReference site topology).Meets anything (m.KeepsPolicy site) := by
  refine meets_reference (fun _ => trivial) fun name rest hnames =>
    (foundBy_headOf site topology name _).weaken fun head hfound => ?_
  have hname := firstName?_of_names hnames
  cases head with
  | unlinked scope =>
    exact ⟨rfl, fun _ hp hg => scopeAdmitted_of_foundBy (hfound hp hg) rfl hc hname⟩
  | bound first scope env =>
    refine Meets.bind (meets_answering _) fun links _ => ?_
    refine Meets.bind (meets_answering _) fun closed _ => ?_
    exact ⟨rfl, fun _ hp hg => scopeAdmitted_of_foundBy (hfound hp hg) rfl hc hname⟩

theorem keepsPolicy_resolveSite {path : Path} {topology : Topology}
    (hsite : m.siteAt? path = .ok (topology, site)) :
    (m.resolveSite site topology).Meets anything (m.KeepsPolicy site) := by
  unfold resolveSite
  split
  · next hk =>
    exact Meets.bind (meets_answering _) fun env _ => ⟨rfl, fun hno => by rw [hk] at hno; cases hno⟩
  · next hk =>
    exact Meets.bind (meets_answering _) fun env _ => ⟨rfl, fun hno => by rw [hk] at hno; cases hno⟩
  · next hk =>
    obtain ⟨_, _, _, _, ha, _⟩ := siteAt?_eq_ok hsite
    exact keepsPolicy_resolveReference topology (Site.context_ne_member ha hk)

/-! ## All answers of a session -/

variable (m) in
/-- The resolution keeps to the policy of a site with that holder. -/
def PolicyOf (holder : NodeId) (r : Resolution) : Prop :=
  ∃ path topology site, m.siteAt? path = .ok (topology, site) ∧ site.holder = holder ∧
    m.KeepsPolicy site r

/-- Sessions know only resolutions with the properties that those of all sites have. -/
theorem governs_sites {P : Site → Resolution → Prop}
    (hP : ∀ {path : Path} {topology : Topology} {site : Site}, m.siteAt? path =
      .ok (topology, site) → (m.resolveSite site topology).Meets anything (P site)) :
    ((m.rules fun _ => True).also fun holder r => ∃ path topology site,
      m.siteAt? path = .ok (topology, site) ∧ site.holder = holder ∧ P site r).Governs
      fun _ => True := by
  have hall : (m.rules fun _ => True).Governs fun _ => True := governs_all
  refine ⟨hall.closed, hall.refines.lawful.also fun path topology site hsite => ?_⟩
  exact (hP hsite).mono (fun _ h => h) (fun _ h => h) (fun _ _ _ _ => trivial)
    (fun _ _ _ h => h) (fun _ h => h) fun r hr => ⟨path, topology, site, hsite, rfl, hr⟩

theorem governs_policies : ((m.rules fun _ => True).also m.PolicyOf).Governs fun _ => True :=
  governs_sites keepsPolicy_resolveSite

open CacheM

/-- A resolution that the session did not know has what every outcome of its rules has. -/
theorem property_of_new {s : Cache} {path : Path} {topology : Topology} {r : Resolution}
    {post : Resolution → Prop} (hs : m.Reachable s) (hsite : m.siteAt? path = .ok (topology, site))
    (hpost : (m.resolveSite site topology).Meets anything post)
    (hnone : s.get? .resolution site.holder = none) (hr : (exec (m.inspect path) s).1 = .ok r) :
    post r := by
  have hlawful : (m.rules fun _ => True).Lawful := governs_all.refines.lawful
  have hsettled := settled_of_reachable hs
  have hk := Theory.answers_lookups hlawful (2 * m.doc.size + 1)
  obtain ⟨t, _, hex, ht, hst, _⟩ :=
    exec_inspectWith_ok (m.lookups (2 * m.doc.size + 1)) hsettled.agrees.orderly hsite
  have hready : (m.rules fun _ => True).Ready m.nesting t :=
    ⟨hsettled.agrees.steady ht hst, room_le t⟩
  have hnone' : t.get? .resolution site.holder = none :=
    (hst.same .resolution site.holder rfl (by decide)).trans hnone
  have hfree : site.holder ∉ t.resolving := by
    rw [hst.resolving, hsettled.idle]
    exact List.not_mem_nil
  obtain ⟨u, hu, _⟩ := Theory.exec_inspectSite_new hlawful hk trivial hsite hready hnone' hfree
  -- the rules of the site are run in a session that is ready for them
  have hboth := (hlawful.site path topology site trivial hsite).both hpost (fun _ _ _ => trivial)
    fun _ _ _ => trivial
  have hend := (hk.run hboth _ (hready.begun hsite hfree)).2.2
  rw [show m.inspect path = m.inspectWith (m.lookups (2 * m.doc.size + 1)) path from rfl,
    hex, hu] at hr
  cases hrun : (exec ((m.resolveSite site topology).run (m.lookups (2 * m.doc.size + 1)))
      (begun t site.holder)).1 with
  | error e =>
    rw [hrun] at hr
    cases hr
  | ok r' =>
    rw [hrun] at hr hend
    cases hr
    exact hend.2

/-- Every reference that a session resolves is found in a scope that its context admits, unless it
asks for a parameter or for a definition. In the contexts that know names with `$`, such a name is
bound by an enclosing query or is the definition itself or a variable. The context is that of the
path, or of another path to the same reference on which the session has resolved it before. -/
theorem scope_admitted_by_context {m : Model} {s : Cache} {path : Path} {r : Resolution}
    (hs : m.Reachable s) (hr : (exec (m.inspect path) s).1 = .ok r) :
    ∃ topology site, m.siteAt? path = .ok (topology, site) ∧
      (s.get? .resolution site.holder = none → r.context = site.context) ∧
      (∃ path' site', m.siteAt? path' = .ok (topology, site') ∧ site'.holder = site.holder ∧
        r.context = site'.context) ∧
      (site.kind = .reference → m.doc.flag site.holder "param" = false →
        m.doc.flag site.holder "global" = false →
        r.scope ∈ r.context.admits ∧
          (r.context ∉ Context.ignoresDollar →
            ∀ name, m.firstName? site = some name → isDollarName name = true →
              r.scope ∈ [Scope.tableAlias, .mixin, .selfRef, .magic])) := by
  obtain ⟨topology, site, hsite, _, path', topology', site', hsite', hholder, hpolicy⟩ :=
    governs_policies.resolves hs trivial hr
  have hkind := kind_eq_of_holder hsite hsite' hholder.symm
  obtain rfl := topology_eq_of_main hsite hsite' (main_eq_of_holder hsite hsite' hholder.symm)
  refine ⟨topology, site, hsite, fun hnone => ?_, ⟨path', site', hsite', hholder, hpolicy.context⟩,
    fun hk hp hg => ?_⟩
  · exact (property_of_new hs hsite (keepsPolicy_resolveSite hsite) hnone hr).context
  · rw [← hholder] at hp hg
    have h := hpolicy.scope (hkind ▸ hk) hp hg
    exact ⟨h.admitted, fun hi name hname => h.dollar hi name (by rw [hholder]; exact hname)⟩

/-! ### A sort order -/

/-- A view lists the titles of books, and the current time. It sorts by a price that it does not
list. -/
def titleModel : Model :=
  ⟨.ofDefinitions [
    ("Books", .object [("elements", .object [("title", .object []), ("price", .object [])])]),
    ("Titles", .object [("query", .object [("SELECT", .object [
      ("from", .object [("ref", .array [.string "Books"])]),
      ("columns", .array [.object [("ref", .array [.string "title"])],
        .object [("ref", .array [.string "$now"]), ("as", .string "time")]]),
      ("orderBy", .array [.object [("ref", .array [.string "price"])]])])]),
      ("elements", .object [("title", .object []), ("time", .object [])])])], {}⟩

/-- An item of a clause of the query. -/
def titleClause (key : String) (position : Nat) : Path :=
  ⟨[.key "definitions", .key "Titles", .key "query", .key "SELECT", .key key, .index position]⟩

def titleSite (holder : NodeId) (context : Context) : Site :=
  { kind := .reference, holder, context, main := 6, query := some 0, member := none,
    memberParent := none, base := none }

def priceResolution : Resolution :=
  { links := [⟨5, none⟩], art := some 5, parent := some 6, scope := .source,
    env := some (.source "Books" 1), context := .orderBy }

def timeResolution : Resolution :=
  { links := [], art := none, parent := some 6, scope := .magic, env := none, context := .columns }

/-- The price is an element of the source, which a sort order may name. The time is a variable,
which no column looks up in the source. -/
theorem titleModel_scopes_admitted :
    (exec (titleModel.inspect (titleClause "orderBy" 0)) Cache.empty).1 = .ok priceResolution ∧
      priceResolution.scope ∈ Context.orderBy.admits ∧
      (exec (titleModel.inspect (titleClause "columns" 1)) Cache.empty).1 = .ok timeResolution ∧
      timeResolution.scope ∈ [Scope.tableAlias, .mixin, .selfRef, .magic] := by
  have hprice : (exec (titleModel.inspect (titleClause "orderBy" 0)) Cache.empty).1 =
      .ok priceResolution :=
    eq_ok_of_toOption (by decide +kernel)
  have htime : (exec (titleModel.inspect (titleClause "columns" 1)) Cache.empty).1 =
      .ok timeResolution :=
    eq_ok_of_toOption (by decide +kernel)
  have hpriceSite : (titleModel.siteAt? (titleClause "orderBy" 0)).toOption.map Prod.snd =
      some (titleSite 21 .orderBy) := by decide +kernel
  have htimeSite : (titleModel.siteAt? (titleClause "columns" 1)).toOption.map Prod.snd =
      some (titleSite 16 .columns) := by decide +kernel
  obtain ⟨_, site, hsite, _, _, hpolicy⟩ := scope_admitted_by_context .new hprice
  rw [hsite] at hpriceSite
  cases hpriceSite
  obtain ⟨_, site', hsite', _, _, hpolicy'⟩ := scope_admitted_by_context .new htime
  rw [hsite'] at htimeSite
  cases htimeSite
  refine ⟨hprice, (hpolicy rfl (by decide +kernel) (by decide +kernel)).1, htime, ?_⟩
  exact (hpolicy' rfl (by decide +kernel) (by decide +kernel)).2 (by decide) "$now"
    (by decide +kernel) (by decide +kernel)

end Model

end SchemaRefs
