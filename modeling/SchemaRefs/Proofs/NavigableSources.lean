import SchemaRefs.Proofs.Inferences

/-!
# Sources of queries can be navigated

A table alias that stands for a path in the sources is resolved when it is needed, at the path of
that source. The path leads back to the source: its site is a reference of the context `source`, in
the query that binds the alias (`Site.exists_of_source`). References of this context denote
definitions or parameters (`scope_of_source`), and their last link has an environment with elements.
Hence an alias always has a link to go on from (`source_aliases_navigable`).
-/

namespace SchemaRefs

namespace Model

open Inquiry CacheM

variable {m : Model} {item : NodeId} {site : Site} {topology : Topology}

/-! ## Sites of sources -/

/-- An alias for a path stands for a leaf of the sources. -/
theorem leaf_of_alias {definition : NodeId} {links : List TopologyLink}
    (hbuilt : m.doc.Built definition topology links) {i : Nat} {scope : QueryScope}
    (hs : topology.scope? i = some scope) {name : String}
    (ha : (name, .path item) ∈ scope.aliases) :
    ∃ leafName, .path item leafName ∈ m.doc.selectSources scope.select := by
  obtain ⟨leaf, hleaf, hbinds⟩ := (hbuilt.complete i scope hs).aliases.sound name _ ha
  cases leaf with
  | path item' leafName =>
    obtain ⟨_, heq⟩ := hbinds
    cases heq
    exact ⟨leafName, hleaf⟩
  | query item' =>
    obtain ⟨_, _, _, heq⟩ := hbinds
    cases heq
  | condition expr => exact hbinds.elim
  | fault item' fault => exact hbinds.elim

/-- The path of a source leads to a reference in the query that binds its alias. -/
theorem siteAt?_source {definition : NodeId} {links : List TopologyLink}
    (hd : m.doc.isDefinition definition = true)
    (hb : m.doc.buildTopology m.options definition = .ok (topology, links)) {i : Nat}
    {scope : QueryScope} (hs : topology.scope? i = some scope) {name : String}
    (hleaf : .path item name ∈ m.doc.selectSources scope.select) :
    ∃ site, m.siteAt? (m.doc.pathOf item) = .ok (topology, site) ∧ m.doc.Within site.main item ∧
      site.kind = .reference ∧ site.holder = item ∧ site.context = .source ∧
      site.query = some i := by
  have hbuilt := Document.built_buildTopology hb
  have hw : m.doc.Within definition item :=
    (hbuilt.within_of_mem (hbuilt.mem_of_scope hs).2).1.trans
      (Document.path_of_mem_selectSources hleaf).1.within.1
  have howner := owner?_of_within hd hw
  have hpath := Document.pathDefinition_pathOf howner
  obtain ⟨site, ha, hkind, hholder, hctx, hq⟩ := Site.exists_of_source hbuilt howner hs hleaf
  have hmain := (Site.located_of_analyze hpath hbuilt ha).main
  refine ⟨site, ?_, hmain ▸ hw, hkind, hholder, hctx, hq⟩
  rw [siteAt?, hpath]
  dsimp only
  rw [hb]
  dsimp only
  rw [ha]

/-! ## What sources denote -/

/-- In the context `source`, names are those of definitions and of parameters. -/
theorem head_of_source (hc : site.context = .source) (topology : Topology) (name : String)
    (segments : Nat) :
    (m.headOf site topology name segments).Meets anything fun head =>
      ∃ art scope, head = plainHead art scope ∧ (scope = .global ∨ scope = .param) := by
  cases hp : m.doc.flag site.holder "param" with
  | true =>
    unfold headOf paramHead
    rw [if_pos hp]
    split
    · exact ⟨_, _, rfl, .inr rfl⟩
    · trivial
  | false =>
    rw [headOf_of_isGlobal topology name (by rw [hc]; rfl) hp]
    unfold globalHead
    split
    · exact ⟨_, _, rfl, .inl rfl⟩
    · split
      · next hbuiltin =>
        rw [hc] at hbuiltin
        cases hbuiltin.2.1
      · trivial

theorem scope_of_source (hc : site.context = .source) (topology : Topology) :
    (m.resolveReference site topology).Meets anything fun r => r.scope = .global ∨
    r.scope = .param := by
  refine meets_reference (fun _ => trivial) fun name rest _ =>
    (head_of_source hc topology name _).weaken fun head hh => ?_
  obtain ⟨art, scope, rfl, hscope⟩ := hh
  refine (meets_resolutionFrom site name rest ⟨art, none⟩ scope none).weaken fun r hr => ?_
  rw [hr.1]
  exact hscope

variable (m) in
/-- The last link of a resolution has an environment with elements. -/
def EndsNavigable (r : Resolution) : Prop :=
  ∃ last env, r.links.getLast? = some last ∧ last.env = some env ∧
    m.doc.hasProp env "elements" = true

theorem ValidWalk.endsNavigable {r : Resolution} (h : m.ValidWalk site r)
    (hc : r.context = .source) (hlinked : r.scope.isUnlinked = false) : m.EndsNavigable r := by
  obtain ⟨_, last, hlast, _, henv⟩ := h.linked hlinked
  obtain ⟨env, he⟩ := henv hc
  exact ⟨last, env, hlast, he, h.envs last (List.mem_of_getLast? hlast) env he⟩

/-- Sessions resolve a source to a definition or a parameter, and on to an environment. -/
theorem source_resolved {path : Path}
    (hsource : ∀ path topology site, m.siteAt? path = .ok (topology, site) → site.holder = item →
      site.context = .source ∧ site.kind = .reference)
    (hsite : m.siteAt? path = .ok (topology, site)) (hholder : site.holder = item) {s : Cache}
    {r : Resolution} (hs : m.Reachable s) (hr : (exec (m.inspect path) s).1 = .ok r) :
    (r.scope = .global ∨ r.scope = .param) ∧ m.EndsNavigable r := by
  have hscoped := governs_sites (m := m)
    (P := fun site r => site.kind = .reference → site.context = .source →
      r.scope = .global ∨ r.scope = .param) fun {_ topology site} _ => by
    unfold resolveSite
    split
    · next hk => exact (meets_answering _).weaken fun _ _ hno => by rw [hk] at hno; cases hno
    · next hk => exact (meets_answering _).weaken fun _ _ hno => by rw [hk] at hno; cases hno
    · by_cases hc : site.context = .source
      · exact (scope_of_source hc topology).weaken fun _ h _ _ => h
      · exact (meets_answering _).weaken fun _ _ _ hno => absurd hno hc
  obtain ⟨topology₁, site₁, hsite₁, hkept, path₂, topology₂, site₂, hsite₂, hholder₂, hscope⟩ :=
    hscoped.resolves hs trivial hr
  obtain ⟨_, _, hsite', _, _, _, _, _, _, hwalk⟩ := governs_walks.resolves hs trivial hr
  -- the session may know the resolution from other paths, but these are held by the source as well
  rw [hsite] at hsite₁ hsite'
  cases hsite₁
  cases hsite'
  obtain ⟨path₃, topology₃, site₃, _, hsite₃, hholder₃, hres⟩ := hkept
  obtain ⟨hctx₂, hkind₂⟩ := hsource _ _ _ hsite₂ (hholder₂.trans hholder)
  obtain ⟨hctx₃, _⟩ := hsource _ _ _ hsite₃ (hholder₃.trans hholder)
  have hglobal := hscope hkind₂ hctx₂
  refine ⟨hglobal, hwalk.endsNavigable (hres.context.trans hctx₃) ?_⟩
  rcases hglobal with h | h <;> rw [h] <;> rfl

/-! ## Aliases -/

/-- A table alias that stands for a path in the sources of a query always denotes something that can
be navigated. The path of the source leads to a reference of the context `source` in that very
query; whenever a session resolves it, the scope is that of definitions or of parameters, and the
last link has an environment with elements. So the alias is never found without links, and no
request fails because of one that is. -/
theorem source_aliases_navigable {m : Model} {definition : NodeId} {topology : Topology}
    {links : List TopologyLink} (hd : m.doc.isDefinition definition = true)
    (hb : m.doc.buildTopology m.options definition = .ok (topology, links)) {i : Nat}
    {scope : QueryScope} (hs : topology.scope? i = some scope) {name : String} {item : NodeId}
    (ha : (name, .path item) ∈ scope.aliases) :
    (∃ site, Site.analyze m.doc topology (m.doc.pathOf item) = .ok site ∧ site.kind = .reference ∧
      site.holder = item ∧ site.context = .source ∧ site.query = some i) ∧
    ∀ s, m.Reachable s →
      (∀ r, (exec (m.inspect (m.doc.pathOf item)) s).1 = .ok r →
        (r.scope = .global ∨ r.scope = .param) ∧
        ∃ last env, r.links.getLast? = some last ∧ last.env = some env ∧
          m.doc.hasProp env "elements" = true) ∧
      (∀ path, (exec ((m.aliasLink topology (.path item)).run m.ask) s).1 ≠
        .error (.assertion (.unlinkedSource path))) ∧
      ∀ request path,
        (exec (m.answer request) s).1 ≠ .error (.assertion (.unlinkedSource path)) := by
  have hbuilt := Document.built_buildTopology hb
  obtain ⟨leafName, hleaf⟩ := leaf_of_alias hbuilt hs ha
  obtain ⟨site, hsite, hw, hkind, hholder, hctx, hq⟩ := siteAt?_source hd hb hs hleaf
  obtain ⟨_, _, _, _, hanalyze, _⟩ := siteAt?_eq_ok hsite
  refine ⟨⟨site, hanalyze, hkind, hholder, hctx, hq⟩,
    fun s hreach => ⟨fun r hr => ?_, fun path he => ?_,
    fun request path he => ?_⟩⟩
  · exact source_resolved (fun _ _ _ hsite' hh => context_of_source hsite hs hleaf hw hsite' hh)
      hsite hholder hreach hr
  · have hend := (keeps_run governs_all (meets_aliasLink governs_all.closed hsite hs ha) s
      (settled_of_reachable hreach)).2.2
    rw [he] at hend
    cases hend
  · have hasks : request.Asks fun _ => True := by cases request <;> trivial
    have hend := (keeps_answer governs_all request hasks s (settled_of_reachable hreach)).2.2
    rw [he] at hend
    exact hend.ne_unlinkedSource path rfl

/-! ### A join of three kinds of sources -/

/-- A view joins an entity, a parameter of its own and a sub-query on another entity. -/
def joinModel : Model :=
  ⟨.ofDefinitions [
    ("E", .object [("elements", .object [("a", .object [])])]),
    ("F", .object [("elements", .object [("b", .object [])])]),
    ("V", .object [
      ("params", .object [("p", .object [("elements", .object [("c", .object [])])])]),
      ("query", .object [("SELECT", .object [("from", .object [("join", .string "inner"),
        ("args", .array [
          .object [("join", .string "left"), ("args", .array [
            .object [("ref", .array [.string "E"])],
            .object [("ref", .array [.string "p"]), ("param", .bool true), ("as", .string "q")]])],
          .object [("SELECT", .object [("from", .object [("ref", .array [.string "F"])])]),
            ("as", .string "s")]])])])])])], {}⟩

/-- The query of the view. -/
def joinView : QueryScope :=
  { number := 1, node := 13, select := 14,
    aliases := [("E", .path 21), ("q", .path 24), ("s", .query 29 1)], elementsOwner :=
      none, next := none }

/-- The query among the sources. -/
def joinSubquery : QueryScope :=
  { number := 2, node := 29, select := 30, aliases := [("F", .path 31)], elementsOwner := none,
    next := some 0 }

def joinTopology : Topology :=
  ⟨8, [joinView, joinSubquery], [(30, 1), (29, 1), (14, 0), (13, 0)]⟩

/-- The resolution of the parameter among the sources. -/
def joinParameter : Resolution :=
  { links := [⟨10, some 10⟩], art := some 10, parent := some 8, scope := .param, env := none,
    context := .source }

/-- The alias of the parameter stands for its elements. -/
theorem joined_parameter_navigable :
    joinModel.doc.buildTopology joinModel.options 8 =
      .ok (joinTopology, [.parent 10 8, .parent 12 10]) ∧
      joinTopology.scope? 0 = some joinView ∧ ("q", .path 24) ∈ joinView.aliases ∧
      (∃ site, Site.analyze joinModel.doc joinTopology (joinModel.doc.pathOf 24) = .ok site ∧
        site.holder = 24 ∧ site.context = .source ∧ site.query = some 0) ∧
      (exec (joinModel.inspect (joinModel.doc.pathOf 24)) Cache.empty).1 = .ok joinParameter ∧
      ∃ last env, joinParameter.links.getLast? = some last ∧ last.env = some env ∧
        joinModel.doc.hasProp env "elements" = true := by
  have hb : joinModel.doc.buildTopology joinModel.options 8 =
      .ok (joinTopology, [.parent 10 8, .parent 12 10]) := eq_ok_of_toOption (by decide +kernel)
  have hs : joinTopology.scope? 0 = some joinView := rfl
  have ha : ("q", .path 24) ∈ joinView.aliases := by decide
  have hr : (exec (joinModel.inspect (joinModel.doc.pathOf 24)) Cache.empty).1 =
      .ok joinParameter :=
    eq_ok_of_toOption (by decide +kernel)
  obtain ⟨⟨site, hanalyze, _, hholder, hctx, hq⟩, hsessions⟩ :=
    source_aliases_navigable (by decide +kernel) hb hs ha
  exact ⟨hb, hs, ha, ⟨site, hanalyze, hholder, hctx, hq⟩, hr, ((hsessions _ .new).1 _ hr).2⟩

end Model

end SchemaRefs
