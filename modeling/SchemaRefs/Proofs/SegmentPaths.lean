import SchemaRefs.Proofs.QueryNumbers

/-!
# Paths into the segments of a reference

The list of segments of a reference, and each segment, is a way to say the reference itself: a path
that goes on into them has the site of the reference (`Site.analyze_segments`,
`Site.analyze_segment`). The exception are segments that are queries of their own. A walk that comes
to a query starts afresh there, so that such a segment has no site at all
(`Site.analyze_query_segment`).
-/

namespace SchemaRefs

namespace Walk

variable {doc : Document} {topology : Topology} {main next : NodeId} {walk : Walk} {path : Path}
  {context : Context}

/-! ## What a walk has left behind -/

/-- The holder of the segments that are being walked lies before the node of the walk, its member
not after it. -/
structure Behind (walk : Walk) : Prop where
  holder : ∀ id path, walk.refHolder = some (id, path) → id < walk.node
  segments : walk.inSegments = true ∨ walk.segment.isSome = true →
    ∃ outer, walk.refHolder = some outer
  member : ∀ id, walk.member = some id → id ≤ walk.node

theorem behind_start : Behind (start doc main) :=
  ⟨fun _ _ h => (by cases h), fun h => (by simp [start] at h), fun _ h => by cases h⟩

theorem Behind.advance (h : Behind walk) {step : Step}
    (hf : doc.follow? walk.node step = some next) :
    Behind (walk.advance doc topology main step next) := by
  have hlt : walk.node < next := Document.container?_lt (Document.container?_of_follow? hf).1
  have hholder : ∀ id path, walk.refHolder = some (id, path) → id < next :=
    fun id path hr => Nat.lt_trans (h.holder id path hr) hlt
  have hmember : ∀ id, walk.member = some id → id ≤ next :=
    fun id hm => Nat.le_trans (h.member id hm) (Nat.le_of_lt hlt)
  have hleft : ∀ {p : Prop}, false = true ∨ (none : Option Nat).isSome = true → p := by simp
  obtain ⟨after, hs, heq⟩ := stepped_advance doc topology main next walk step
  rw [heq]
  cases hs with
  | query _ => exact ⟨fun _ _ hr => (by cases hr), hleft, hmember⟩
  | member map _ _ _ =>
    refine ⟨hholder, hleft, fun id hm => ?_⟩
    cases hm
    exact Nat.le_refl _
  | position _ _ _ => exact ⟨hholder, hleft, hmember⟩
  | property _ _ _ hp => cases hp <;> exact ⟨hholder, hleft, hmember⟩
  | expression _ _ he =>
    cases he with
    | stay | items | fixed | nested | join => exact ⟨hholder, hleft, hmember⟩
    | filter | looseFilter | decoration => exact ⟨fun _ _ hr => (by cases hr), hleft, hmember⟩
    | segment position hin => exact ⟨hholder, fun _ => h.segments (.inl hin), hmember⟩
    | segments =>
      refine ⟨fun id path hr => ?_, fun _ => ⟨_, rfl⟩, hmember⟩
      cases hr
      exact hlt

theorem Along.behind (h : Along doc topology main path walk) : Behind walk :=
  advanceAll_keeps (fun _ _ _ hP hf => hP.advance hf) h.walked behind_start

theorem Along.main_le (h : Along doc topology main path walk) : main ≤ walk.node :=
  (advanceAll_keeps (fun _ _ _ hP hf => hP.advance hf) h.walked local_start :
    Local doc main walk).node.le

/-! ## Steps into segments -/

theorem finish_segments {holder : NodeId} {outer : Path}
    (hc : walk.context = some context) (hin : walk.inSegments = true ∨ walk.segment.isSome = true)
    (hr : walk.refHolder = some (holder, outer)) :
    walk.finish doc main path = .ok (walk.site main .reference holder context) := by
  have hany : (walk.segment.isSome || walk.inSegments) = true := Bool.or_eq_true_iff.mpr hin.symm
  unfold finish
  rw [hc]
  simp only [hany, if_true, hr]

/-- A reference that its own node holds is not reached through the segments of another one. -/
theorem Behind.own_of_finish {site : Site} (h : Behind walk)
    (hf : walk.finish doc main path = .ok site) (hk : site.kind = .reference)
    (hh : site.holder = walk.node) :
    ∃ context, walk.context = some context ∧ walk.segment = none ∧
      site = walk.site main .reference walk.node context := by
  have hsome : ∃ context, walk.context = some context := by
    cases hc : walk.context with
    | some context => exact ⟨context, rfl⟩
    | none =>
      rcases finish_cases hf with rfl | ⟨_, _, _, _, hc', _⟩
      · simp only [here, site, kindHere, hc] at hk
        split at hk <;> cases hk
      · rw [hc] at hc'
        cases hc'
  obtain ⟨context, hc⟩ := hsome
  -- inside of segments the holder would lie before the node
  have hout : ¬ (walk.inSegments = true ∨ walk.segment.isSome = true) := by
    intro hin
    obtain ⟨⟨holder, outer⟩, hr⟩ := h.segments hin
    rw [finish_segments hc hin hr] at hf
    cases hf
    exact Nat.ne_of_lt (h.holder holder outer hr) hh
  refine ⟨context, hc, ?_, ?_⟩
  · cases hs : walk.segment with
    | none => rfl
    | some position => exact absurd (.inr (by rw [hs]; rfl)) hout
  · rcases finish_cases hf with rfl | ⟨_, _, _, _, _, hin, _⟩
    · simp only [here, kindHere, hc, Option.getD_some]
    · exact absurd hin hout

/-- The walk at the list of segments of the reference at its node. -/
def atSegments (walk : Walk) (list : NodeId) : Walk :=
  walk.goTo (.key "ref") list
    { walk.leave with refHolder := some (walk.node, walk.trail), inSegments := true }

theorem advance_segments {list : NodeId} (hq : topology.queryOf? list = none)
    (hc : walk.context = some context) (hs : walk.segment = none) :
    walk.advance doc topology main (.key "ref") list = walk.atSegments list := by
  rw [advance_eq, hq]
  simp only [hc, hs]
  rfl

/-- The walk at a segment of a list. -/
def atSegment (walk : Walk) (item : NodeId) (position : Nat) : Walk :=
  walk.goTo (.index position) item { walk.leave with segment := some position }

theorem advance_segment {item : NodeId} {position : Nat} (hq : topology.queryOf? item = none)
    (hc : walk.context = some context) (hin : walk.inSegments = true) :
    walk.advance doc topology main (.index position) item = walk.atSegment item position := by
  rw [advance_eq, hq]
  simp only [hc, hin]
  rfl

/-- Where a query begins that is no member, nothing can be referred to. -/
theorem finish_query {item : NodeId} {index : Nat} {step : Step}
    (hq : topology.queryOf? item = some index) (hmain : main ≠ item)
    (hmember : walk.member ≠ some item) :
    (walk.advance doc topology main step item).finish doc main path = .error (.noReference path) ∨
      ∃ key, (walk.advance doc topology main step item).finish doc main path =
        .error (.unsupported key path) := by
  rw [advance_eq, hq]
  have hne : (item == main) = false := beq_false_of_ne hmain.symm
  have hother : (walk.member == some item) = false := beq_false_of_ne hmember
  simp only [finish, goTo, stepQuery, leave, hne, hother, Bool.false_eq_true, if_false]
  split
  · by_cases hlike : doc.isRefLike item = true
    · simp only [hlike, if_true]
      exact .inr ⟨_, rfl⟩
    · simp only [hlike]
      exact .inl rfl
  · exact .inl rfl

end Walk

/-! ## Segments and queries -/

namespace Document

variable {doc : Document} {definition : NodeId}

/-- Where the queries of a definition stand: at its `query`, among the arms of a `SET`, or where a
`SELECT` or `SET` says so. -/
theorem IsQueryOf.place {query : NodeId} (h : doc.IsQueryOf definition query) :
    doc.isQuery query = true ∨
      (∃ key, (key = "query" ∨ key = "projection") ∧ doc.step? query = some (.key key)) ∨
      ∃ list position, doc.container? query = some list ∧ doc.step? list = some (.key "args") ∧
        doc.step? query = some (.index position) := by
  obtain ⟨root, hroot, hbelow⟩ := h
  cases hbelow with
  | refl =>
    unfold rootQueries at hroot
    split at hroot
    · exact .inl (isQuery_of_mem_subqueries hroot)
    · obtain ⟨key, hkey, hp⟩ := prop?_of_query? (Option.mem_toList.mp hroot)
      exact .inr (.inl ⟨key, hkey, (container?_of_prop? hp).2⟩)
  | @tail outer _ _ hmem =>
    unfold nestedQueries at hmem
    split at hmem
    · obtain ⟨list, hlist, hitem⟩ := exists_list_of_mem_propItems hmem
      obtain ⟨hc, position, hs⟩ := container?_of_mem_itemsAt hitem
      exact .inr (.inr ⟨list, position, hc, (container?_of_prop? hlist).2, hs⟩)
    · cases hsel : doc.prop? outer "SELECT" with
      | none =>
        rw [hsel] at hmem
        cases hmem
      | some select =>
        rw [hsel] at hmem
        exact .inl (isQuery_of_mem_subqueries hmem)

theorem isQuery_of_isArray {node : NodeId} (h : doc.isArray node = true) :
    doc.isQuery node = false := by
  unfold isArray at h
  split at h
  · next hv =>
    have hprop : ∀ key, doc.prop? node key = none := by
      intro key
      have hv : valueIn doc.nodes node = _ := hv
      simp only [prop?, propIn, hv]
    simp [isQuery, hasProp, hprop]
  · cases h

section

variable {options : Options} {topology : Topology} {links : List TopologyLink}
  (hb : doc.buildTopology options definition = .ok (topology, links))
include hb

/-- Where a node with a number stands. -/
theorem place_of_queryOf? {node : NodeId} {index : Nat} (hq : topology.queryOf? node = some index) :
    doc.isQuery node = true ∨
      (∃ key, (key = "query" ∨ key = "projection" ∨ key = "SET" ∨ key = "SELECT") ∧
        doc.step? node = some (.key key)) ∨
      ∃ list position, doc.container? node = some list ∧ doc.step? list = some (.key "args") ∧
        doc.step? node = some (.index position) := by
  have hpart := (Model.isSome_queryOf?_iff (m := ⟨doc, options⟩) hb).mp (by rw [hq]; rfl)
  rcases hpart with hprojected | ⟨query, hof, rfl | hbody⟩
  · obtain ⟨key, hkey, hp⟩ := prop?_of_query? (Option.eq_some_of_filter_eq_some hprojected)
    exact .inr (.inl ⟨key, by tauto, (container?_of_prop? hp).2⟩)
  · rcases hof.place with h | ⟨key, hkey, hs⟩ | h
    · exact .inl h
    · exact .inr (.inl ⟨key, by tauto, hs⟩)
    · exact .inr (.inr h)
  · obtain ⟨key, hkey, hp⟩ := prop?_of_body? hbody
    exact .inr (.inl ⟨key, by tauto, (container?_of_prop? hp).2⟩)

/-- A list of segments has no number. -/
theorem queryOf?_segments {holder list : NodeId} (hr : doc.refPath? holder = some list) :
    topology.queryOf? list = none := by
  obtain ⟨hp, harray⟩ := prop?_of_refPath? hr
  have hstep := (container?_of_prop? hp).2
  cases hq : topology.queryOf? list with
  | none => rfl
  | some index =>
    rcases place_of_queryOf? hb hq with h | ⟨key, hkey, hs⟩ | ⟨_, _, _, _, hs⟩
    · rw [isQuery_of_isArray harray] at h
      cases h
    · rw [hstep] at hs
      cases hs
      simp at hkey
    · rw [hstep] at hs
      cases hs

/-- A segment with a number is a query by its own properties. -/
theorem isQuery_of_segment {holder list item : NodeId} {position index : Nat}
    (hr : doc.refPath? holder = some list) (hi : (doc.itemsAt list)[position]? = some item)
    (hq : topology.queryOf? item = some index) : doc.isQuery item = true := by
  obtain ⟨hc, hs⟩ := container?_of_getElem?_itemsAt hi
  rcases place_of_queryOf? hb hq with h | ⟨key, _, hs'⟩ | ⟨list', _, hc', hs', _⟩
  · exact h
  · rw [hs] at hs'
    cases hs'
  · rw [hc] at hc'
    cases hc'
    rw [(container?_of_prop? (prop?_of_refPath? hr).1).2] at hs'
    simp at hs'

end

end Document

/-! ## The sites of segments -/

section

variable {doc : Document} {options : Options} {definition : NodeId} {topology : Topology}
  {links : List TopologyLink} {path : Path} {site : Site} {list : NodeId}
  (hb : doc.buildTopology options definition = .ok (topology, links))
  (ha : Site.analyze doc topology path = .ok site) (hk : site.kind = .reference)
  (hn : doc.nodeAt? path = some site.holder) (hr : doc.refPath? site.holder = some list)
include hb ha hk hn hr

/-- The walk into the segments of a reference that its own node holds. -/
theorem Walk.along_segments :
    ∃ main walk context, Walk.Along doc topology main (path.push (.key "ref"))
      (walk.atSegments list) ∧
      walk.context = some context ∧ site = walk.site main .reference walk.node context ∧
      Walk.Behind walk ∧ walk.node < list := by
  obtain ⟨main, walk, halong, hfinish⟩ := Walk.exists_along_of_analyze ha
  have hnode : walk.node = site.holder := by
    have := halong.nodeAt?
    rw [hn] at this
    exact (Option.some.inj this).symm
  obtain ⟨context, hc, hs, hsite⟩ := halong.behind.own_of_finish hfinish hk hnode.symm
  obtain ⟨hin, hstep⟩ := Document.container?_of_prop? (Document.prop?_of_refPath? hr).1
  refine ⟨main, walk, context, ?_, hc, hsite, halong.behind, hnode ▸ Document.container?_lt hin⟩
  have hpush := halong.push (hnode ▸ Document.follow?_of_container? hin hstep)
  rwa [Walk.advance_segments (Document.queryOf?_segments hb hr) hc hs] at hpush

theorem Site.analyze_segments : Site.analyze doc topology (path.push (.key "ref")) = .ok site := by
  obtain ⟨main, walk, context, halong, hc, hsite, _⟩ := Walk.along_segments hb ha hk hn hr
  have hc' : (walk.atSegments list).context = some context := hc
  rw [halong.analyze, Walk.finish_segments hc' (.inl rfl) rfl, hsite]
  rfl

variable {position : Nat} {item : NodeId} (hi : (doc.itemsAt list)[position]? = some item)
include hi

theorem Site.analyze_segment (hq : topology.queryOf? item = none) :
    Site.analyze doc topology ((path.push (.key "ref")).push (.index position)) = .ok site := by
  obtain ⟨main, walk, context, halong, hc, hsite, _⟩ := Walk.along_segments hb ha hk hn hr
  obtain ⟨hin, hstep⟩ := Document.container?_of_getElem?_itemsAt hi
  have hpush := halong.push (Document.follow?_of_container? hin hstep)
  have hc' : (walk.atSegments list).context = some context := hc
  have hc'' : ((walk.atSegments list).atSegment item position).context = some context := hc
  rw [Walk.advance_segment hq hc' rfl] at hpush
  rw [hpush.analyze, Walk.finish_segments hc'' (.inr rfl) rfl, hsite]
  rfl

/-- A path on to a segment that is a query has no site. -/
theorem Site.analyze_query_segment {index : Nat} (hq : topology.queryOf? item = some index)
    {inner : Path} (hinner : inner = (path.push (.key "ref")).push (.index position)) :
    Site.analyze doc topology inner = .error (.noReference inner) ∨
      ∃ key, Site.analyze doc topology inner = .error (.unsupported key inner) := by
  obtain ⟨main, walk, context, halong, hc, hsite, hbehind, hlt⟩ :=
    Walk.along_segments hb ha hk hn hr
  obtain ⟨hin, hstep⟩ := Document.container?_of_getElem?_itemsAt hi
  have hpush := halong.push (Document.follow?_of_container? hin hstep)
  have hafter : list < item := Document.container?_lt hin
  have hmain : main ≠ item := Nat.ne_of_lt (Nat.lt_of_le_of_lt halong.main_le hafter)
  have hmember : (walk.atSegments list).member ≠ some item := by
    intro hm
    exact Nat.lt_irrefl _ (Nat.lt_of_le_of_lt (hbehind.member item hm) (Nat.lt_trans hlt hafter))
  rw [hinner, hpush.analyze]
  exact Walk.finish_query hq hmain hmember

end

namespace Model

open CacheM

variable {m : Model}

/-- A session that inspects the paths of nodes answers with a resolution that is right for the site
there, whatever path the resolution was kept for. -/
theorem resolved_of_canonical {s : Cache} {node : NodeId} {topology : Topology} {site : Site}
    {r : Resolution} (hs : m.ReachableBy m.IsCanonical s)
    (hsite : m.siteAt? (m.doc.pathOf node) = .ok (topology, site))
    (hr : (exec (m.inspect (m.doc.pathOf node)) s).1 = .ok r) : m.Resolved topology site r := by
  have hT : (m.rules m.IsCanonical).Governs m.IsCanonical := governs_rules pathClosed_isCanonical
  obtain ⟨topology₁, site₁, hsite₁, path', topology', site', hp', hsite', hh, hres⟩ :=
    hT.resolves hs ⟨node, rfl⟩ hr
  rw [hsite] at hsite₁
  cases hsite₁
  have heq := siteAt?_eq_of_holder hp' ⟨node, rfl⟩ hsite' hsite hh
  rw [hsite', hsite] at heq
  cases heq
  exact hres

/-- A holder has one site. All paths of nodes with that holder lead to it, and so does a path into
the segments of a reference, unless it ends at a segment that is a query itself: there it has no
site. A session that inspects the paths of nodes never answers with a resolution from another
context. -/
theorem holder_determines_site {m : Model} {definition : NodeId} {topology : Topology}
    {links : List TopologyLink}
    (hb : m.doc.buildTopology m.options definition = .ok (topology, links)) :
    (∀ node node' site site', Site.analyze m.doc topology (m.doc.pathOf node) = .ok site →
      Site.analyze m.doc topology (m.doc.pathOf node') = .ok site' → site.holder = site'.holder →
      site = site') ∧
    (∀ path site list, Site.analyze m.doc topology path = .ok site → site.kind = .reference →
      m.doc.nodeAt? path = some site.holder → m.doc.refPath? site.holder = some list →
      Site.analyze m.doc topology (path.push (.key "ref")) = .ok site ∧
      ∀ position item inner, (m.doc.itemsAt list)[position]? = some item →
        inner = (path.push (.key "ref")).push (.index position) →
        (topology.queryOf? item = none → Site.analyze m.doc topology inner = .ok site) ∧
        ∀ index, topology.queryOf? item = some index → m.doc.isQuery item = true ∧
          (Site.analyze m.doc topology inner = .error (.noReference inner) ∨
            ∃ key, Site.analyze m.doc topology inner = .error (.unsupported key inner))) ∧
    ∀ s node site r, m.ReachableBy m.IsCanonical s → m.doc.owner? node = some definition →
      Site.analyze m.doc topology (m.doc.pathOf node) = .ok site →
      (exec (m.inspect (m.doc.pathOf node)) s).1 = .ok r → r.context = site.context := by
  refine ⟨fun _ _ _ _ ha ha' hh => Site.eq_of_holder ha ha' hh,
    fun path site list ha hk hn hr => ?_,
    fun s node site r hs ho ha hex => ?_⟩
  · refine ⟨Site.analyze_segments hb ha hk hn hr, fun position item inner hi hinner =>
      ⟨fun hq => ?_, fun index hq => ⟨Document.isQuery_of_segment hb hr hi hq, ?_⟩⟩⟩
    · rw [hinner]
      exact Site.analyze_segment hb ha hk hn hr hi hq
    · exact Site.analyze_query_segment hb ha hk hn hr hi hq hinner
  · have hsite := siteAt?_of_analyze (Document.pathDefinition_pathOf ho) hb ha
    exact (resolved_of_canonical hs hsite hex).context

/-! ### A segment that is a query -/

/-- A view with one column, whose only segment has a query among its properties. -/
def segmentModel : Model :=
  ⟨.ofDefinitions [
    ("E", .object [("elements", .object [("a", .object [("type", .string "cds.String")])])]),
    ("V", .object [("query", .object [("SELECT", .object [
      ("from", .object [("ref", .array [.string "E"])]),
      ("columns", .array [.object [("ref", .array [.object [("id", .string "a"),
        ("SELECT", .object [("from", .object [("ref", .array [.string "E"])])])]])]])])])])], {}⟩

/-- The view has the number of its query, and the segment the one of its own. -/
def segmentTopology : Topology :=
  ⟨6, [{ number := 1, node := 7, select := 8, aliases := [("E", .path 9)], elementsOwner := none,
         next := none },
       { number := 2, node := 15, select := 17, aliases := [("E", .path 18)], elementsOwner := none,
         next := some 0 }], [(17, 1), (15, 1), (8, 0), (7, 0)]⟩

/-- The source of the view. -/
def segmentSource : Path :=
  ⟨[.key "definitions", .key "V", .key "query", .key "SELECT", .key "from"]⟩

/-- The column of the view. -/
def segmentColumn : Path :=
  ⟨[.key "definitions", .key "V", .key "query", .key "SELECT", .key "columns", .index 0]⟩

/-- The site of a reference of the view. -/
def segmentSite (holder : NodeId) (context : Context) : Site :=
  { kind := .reference, holder, context, main := 6, query := some 0, member := none,
    memberParent := none, base := none }

/-- A session that was asked for the list of segments of the column. -/
def segmentSession : Cache :=
  (exec (segmentModel.answer (.inspect (segmentModel.doc.pathOf 14))) Cache.empty).2

/-- The source has its site at the path of its segment as well. The column has it at the path of its
list of segments, but not at the path of the segment that is a query. Its resolution, kept for the
list, is one for the column. -/
theorem segmentModel_sites :
    segmentModel.doc.buildTopology {} 6 = .ok (segmentTopology, []) ∧
      Site.analyze segmentModel.doc segmentTopology segmentSource = .ok (segmentSite 9 .source) ∧
      Site.analyze segmentModel.doc segmentTopology
        ((segmentSource.push (.key "ref")).push (.index 0)) = .ok (segmentSite 9 .source) ∧
      Site.analyze segmentModel.doc segmentTopology segmentColumn = .ok (segmentSite 13 .columns) ∧
      Site.analyze segmentModel.doc segmentTopology (segmentColumn.push (.key "ref")) =
        .ok (segmentSite 13 .columns) ∧
      (∃ error, Site.analyze segmentModel.doc segmentTopology
        ((segmentColumn.push (.key "ref")).push (.index 0)) = .error error) ∧
      (exec (segmentModel.inspect (segmentModel.doc.pathOf 13)) segmentSession).1.isOk = true ∧
      ∀ r, (exec (segmentModel.inspect (segmentModel.doc.pathOf 13)) segmentSession).1 = .ok r →
        r.context = .columns := by
  have hb : segmentModel.doc.buildTopology segmentModel.options 6 = .ok (segmentTopology, []) :=
    eq_ok_of_toOption (by decide +kernel)
  have hsource : Site.analyze segmentModel.doc segmentTopology segmentSource =
      .ok (segmentSite 9 .source) := eq_ok_of_toOption (by decide +kernel)
  have hcolumn : Site.analyze segmentModel.doc segmentTopology segmentColumn =
      .ok (segmentSite 13 .columns) := eq_ok_of_toOption (by decide +kernel)
  have hreach : segmentModel.ReachableBy segmentModel.IsCanonical segmentSession :=
    .after (.inspect (segmentModel.doc.pathOf 14)) ⟨14, rfl⟩ .new
  have hpath : segmentModel.doc.pathOf 13 = segmentColumn := by decide +kernel
  obtain ⟨_, hsegments, hkept⟩ := holder_determines_site hb
  obtain ⟨_, hplain⟩ := hsegments segmentSource _ 10 hsource rfl (by decide +kernel)
    (by decide +kernel)
  obtain ⟨hlist, hquery⟩ :=
    hsegments segmentColumn _ 14 hcolumn rfl (by decide +kernel) (by decide +kernel)
  have herror : ∃ error, Site.analyze segmentModel.doc segmentTopology
      ((segmentColumn.push (.key "ref")).push (.index 0)) = .error error := by
    rcases ((hquery 0 15 _ (by decide +kernel) rfl).2 1 rfl).2 with h | ⟨key, h⟩
    · exact ⟨_, h⟩
    · exact ⟨_, h⟩
  exact ⟨hb, hsource, (hplain 0 11 _ (by decide +kernel) rfl).1 rfl, hcolumn, hlist, herror,
    by decide +kernel,
    fun r hr => hkept segmentSession 13 _ r hreach (by decide +kernel) (hpath ▸ hcolumn) hr⟩

/-- A path to a segment does not always denote the whole reference: the column is found at its own
path and at that of its list of segments, but nothing is found at the path of its only segment. -/
theorem query_segment_denotes_nothing :
    (exec (segmentModel.inspect segmentColumn) Cache.empty).1.isOk = true ∧
      (exec (segmentModel.inspect (segmentColumn.push (.key "ref"))) Cache.empty).1 =
        (exec (segmentModel.inspect segmentColumn) Cache.empty).1 ∧
      (exec (segmentModel.inspect ((segmentColumn.push (.key "ref")).push (.index 0)))
          Cache.empty).1 =
        .error (.model (.noReference ((segmentColumn.push (.key "ref")).push (.index 0)))) := by
  decide +kernel

end Model

end SchemaRefs
