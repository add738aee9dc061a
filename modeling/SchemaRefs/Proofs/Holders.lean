import SchemaRefs.Proofs.CanonicalPaths
import SchemaRefs.Proofs.PathTexts

/-!
# The holders of references

A path into the segments of a reference denotes the whole reference, so that the site at its end is
one that an earlier point of the walk would give (`Walk.Resumes`). Hence what holds at all points of
a walk holds where the reference begins:

* along the paths of nodes, the site of a reference is a function of its holder
  (`Site.here_of_pathOf`);
* on every path, the leaves of the sources of a query are references of the context `source`
  (`Site.context_of_source`).
-/

namespace SchemaRefs

variable {i : Nat} {definition item node : NodeId} {path : Path} {scope : QueryScope} {site : Site}
  {name : String}

namespace Walk

variable {doc : Document} {topology : Topology} {main next : NodeId} {walk : Walk} {path : Path}

/-! ## Where a reference begins -/

/-- References at the nodes of both walks have the same surroundings. -/
structure SameSite (a b : Walk) : Prop where
  context : a.context = b.context
  query : a.query = b.query
  member : a.member = b.member
  memberParent : a.memberParent = b.memberParent
  base : a.base = b.base

/-- A walk among the segments of a reference has come by its holder, at a point with `P`. -/
def Resumes (P : Walk → Prop) (walk : Walk) : Prop :=
  ∀ holder path, walk.refHolder = some (holder, path) →
    walk.inSegments = true ∨ walk.segment.isSome = true →
    ∃ earlier, P earlier ∧ earlier.node = holder ∧ SameSite earlier walk

theorem resumes_start (P : Walk → Prop) : Resumes P (start doc main) :=
  fun _ _ h => by cases h

theorem resumes_of_leave {P : Walk → Prop} (hs : walk.segment = none)
    (hi : walk.inSegments = false) : Resumes P walk := by
  intro holder path _ h
  rw [hs, hi] at h
  simp at h

theorem Resumes.advance {P : Walk → Prop} (h : Resumes P walk) (hP : P walk) (step : Step) :
    Resumes P (walk.advance doc topology main step next) := by
  obtain ⟨after, hs, heq⟩ := stepped_advance doc topology main next walk step
  rw [heq]
  cases hs with
  | query _ => exact fun holder path hr => by cases hr
  | member | position => exact resumes_of_leave rfl rfl
  | property _ _ _ hp => cases hp <;> exact resumes_of_leave rfl rfl
  | expression _ hctx he =>
    cases he with
    | stay | items | fixed | nested | join => exact resumes_of_leave rfl rfl
    | filter | looseFilter | decoration => exact fun holder path hr => by cases hr
    | segment position hin =>
      intro holder path hr _
      obtain ⟨earlier, hp, hn, hsame⟩ := h holder path hr (.inl hin)
      exact ⟨earlier, hp, hn, hsame.context, hsame.query, hsame.member,
        hsame.memberParent, hsame.base⟩
    | segments =>
      intro holder path hr _
      cases hr
      exact ⟨walk, hP, rfl, rfl, rfl, rfl, rfl, rfl⟩

/-- What every step keeps holds where the reference begins that a walk has come to. -/
theorem advanceAll_resumes {P : Walk → Prop}
    (hstep : ∀ walk step next, P walk → doc.follow? walk.node step = some next →
      P (walk.advance doc topology main step next)) {steps : List Step} {walk walk' : Walk}
    (h : advanceAll doc topology main path steps walk = .ok walk') (hP : P walk)
    (hr : Resumes P walk) : P walk' ∧ Resumes P walk' :=
  advanceAll_keeps (P := fun walk => P walk ∧ Resumes P walk)
    (fun _ step _ h hf => ⟨hstep _ _ _ h.1 hf, h.2.advance h.1 step⟩) h ⟨hP, hr⟩

/-! ## The site at a node -/

/-- What stands at the node of the walk itself. -/
def kindHere (main : NodeId) (walk : Walk) : SiteKind :=
  match walk.context with
  | none => if walk.node = main then .definition else .member
  | some _ => .reference

/-- The site of what stands at the node of the walk itself. -/
def here (main : NodeId) (walk : Walk) : Site :=
  walk.site main (walk.kindHere main) walk.node (walk.context.getD .member)

/-- The site at the end of a walk is the one at its node, or of the reference whose segments it has
come to. -/
theorem finish_cases {site : Site} (h : walk.finish doc main path = .ok site) :
    site = walk.here main ∨
      ∃ holder q context, walk.refHolder = some (holder, q) ∧ walk.context = some context ∧
        (walk.inSegments = true ∨ walk.segment.isSome = true) ∧
        site = walk.site main .reference holder context := by
  unfold finish at h
  split at h
  · next hc =>
    left
    split at h
    · next hn =>
      cases h
      simp [here, kindHere, hc, eq_of_beq hn]
    · next hn =>
      split at h
      · cases h
        have : walk.node ≠ main := fun heq => hn (beq_iff_eq.mpr heq)
        simp [here, kindHere, hc, this]
      · split at h
        · split at h <;> cases h
        · cases h
  · next context hc =>
    dsimp only at h
    split at h
    · next holder q houter =>
      cases h
      right
      split at houter
      · next hseg =>
        simp only [Bool.or_eq_true] at hseg
        exact ⟨holder, q, context, houter, hc, hseg.symm, rfl⟩
      · cases houter
    · left
      have hsite : walk.here main = walk.site main .reference walk.node context := by
        simp [here, kindHere, hc]
      rw [hsite]
      split at h
      · cases h
        rfl
      · split at h
        · cases h
          rfl
        · cases h

theorem here_of_sameSite {earlier : Walk} {context : Context} (h : SameSite earlier walk)
    (hc : walk.context = some context) :
    earlier.here main = walk.site main .reference earlier.node context := by
  have hc' : earlier.context = some context := h.context.trans hc
  simp [here, kindHere, site, hc', h.query, h.member, h.memberParent, h.base]

theorem here_of_finish {P : Walk → Prop} {site : Site} (hP : P walk)
    (hr : Resumes P walk) (h : walk.finish doc main path = .ok site) :
    ∃ earlier, P earlier ∧ site = earlier.here main := by
  rcases finish_cases h with rfl | ⟨holder, q, context, hh, hc, hseg, rfl⟩
  · exact ⟨walk, hP, rfl⟩
  · obtain ⟨earlier, hp, rfl, hsame⟩ := hr holder q hh hseg
    exact ⟨earlier, hp, (here_of_sameSite hsame hc).symm⟩

end Walk

variable {doc : Document} {topology : Topology}

theorem Site.pathDefinition_of_analyze (h : Site.analyze doc topology path = .ok site) :
    ∃ definition, doc.pathDefinition path = .ok definition := by
  unfold Site.analyze at h
  cases hd : doc.pathDefinition path with
  | error e =>
    rw [hd] at h
    cases h
  | ok definition => exact ⟨definition, rfl⟩

theorem Site.walk_of_analyze (hd : doc.pathDefinition path = .ok definition)
    (h : Site.analyze doc topology path = .ok site) :
    ∃ walk, Walk.advanceAll doc topology definition path path.inner (Walk.start doc definition) =
      .ok walk ∧ walk.finish doc definition path = .ok site := by
  unfold Site.analyze at h
  rw [hd] at h
  simp only [bind, Except.bind] at h
  split at h
  · cases h
  · next walk hw => exact ⟨walk, hw, h⟩

theorem Site.here_of_analyze {P : Walk → Prop} (hd : doc.pathDefinition path = .ok definition)
    (h : Site.analyze doc topology path = .ok site) (hstart : P (Walk.start doc definition))
    (hstep : ∀ walk step next, P walk → doc.follow? walk.node step = some next →
      P (walk.advance doc topology definition step next)) :
    ∃ walk, P walk ∧ site = walk.here definition := by
  obtain ⟨walk, hw, hf⟩ := Site.walk_of_analyze hd h
  obtain ⟨hP, hr⟩ := Walk.advanceAll_resumes hstep hw hstart (Walk.resumes_start P)
  exact Walk.here_of_finish hP hr hf

/-! ## Along a path -/

namespace Walk

variable {main next : NodeId} {walk : Walk} {path : Path}

variable (doc topology main) in
/-- The walk is the one along a path into the definition. -/
structure Along (path : Path) (walk : Walk) : Prop where
  definition : doc.pathDefinition path = .ok main
  walked : advanceAll doc topology main path path.inner (start doc main) = .ok walk

theorem followAll?_of_advanceAll {steps : List Step} {walk' : Walk}
    (h : advanceAll doc topology main path steps walk = .ok walk') :
    doc.followAll? walk.node steps = some walk'.node := by
  induction steps generalizing walk with
  | nil =>
    cases h
    rfl
  | cons step rest ih =>
    rw [advanceAll] at h
    split at h
    · cases h
    · next next hn =>
      rw [Document.followAll?, hn, Option.bind_some]
      exact ih h

theorem Along.nodeAt? (h : Along doc topology main path walk) :
    doc.nodeAt? path = some walk.node := by
  rw [Document.nodeAt?_of_pathDefinition h.definition]
  exact followAll?_of_advanceAll h.walked

theorem along_start (hd : doc.isDefinition main = true) :
    Along doc topology main (start doc main).trail (start doc main) := by
  have ho : doc.owner? main = some main := Document.owner?_eq_some_iff.mpr ⟨hd, .refl⟩
  rw [trail_start hd]
  exact ⟨Document.pathDefinition_pathOf ho, by rw [Document.inner_definition hd]; rfl⟩

theorem Along.push (h : Along doc topology main path walk) {step : Step}
    (hf : doc.follow? walk.node step = some next) :
    Along doc topology main (path.push step) (walk.advance doc topology main step next) := by
  refine ⟨Document.pathDefinition_push h.definition step, ?_⟩
  rw [Document.inner_push h.definition, advanceAll_append (advanceAll_path h.walked),
    advanceAll, hf]
  rfl

theorem Along.analyze (h : Along doc topology main path walk) :
    Site.analyze doc topology path = walk.finish doc main path := by
  unfold Site.analyze
  rw [h.definition]
  simp only [bind, Except.bind]
  rw [h.walked]

theorem exists_along_of_analyze {site : Site} (h : Site.analyze doc topology path = .ok site) :
    ∃ main walk, Along doc topology main path walk ∧ walk.finish doc main path = .ok site := by
  obtain ⟨main, hd⟩ := Site.pathDefinition_of_analyze h
  obtain ⟨walk, hw, hf⟩ := Site.walk_of_analyze hd h
  exact ⟨main, walk, ⟨hd, hw⟩, hf⟩

end Walk

/-! ## Along the paths of nodes -/

/-- The outer reference is known by the path of a node. -/
def BaseRef.IsCanonical (doc : Document) (main : NodeId) (base : BaseRef) : Prop :=
  ∃ node, doc.Within main node ∧
    (base = .column (doc.pathOf node) ∨ ∃ position, base = .segment (doc.pathOf node) position)

namespace Walk

variable {main : NodeId}

variable (doc topology main) in
/-- The walk is the one along the path of its node. -/
def IsWalkTo (walk : Walk) : Prop :=
  doc.Within main walk.node ∧ walkTo? doc topology main walk.node = some walk

variable (topology) in
theorem resumes_walkTo? (hd : doc.isDefinition main = true) {node : NodeId}
    (hw : doc.Within main node) :
    ∃ walk, walkTo? doc topology main node = some walk ∧ walk.node = node ∧
      Resumes (IsWalkTo doc topology main) walk := by
  induction hw with
  | refl => exact ⟨_, walkTo?_definition hd, rfl, resumes_start _⟩
  | @step node parent hc hw ih =>
    obtain ⟨walk, hp, hn, hr⟩ := ih
    obtain ⟨step, hs, _⟩ := Document.follow?_container hc
    have hto : IsWalkTo doc topology main walk := ⟨hn ▸ hw, hn ▸ hp⟩
    exact ⟨_, walkTo?_step hd hw hc hs hp hn, rfl, hr.advance hto step⟩

variable (topology) in
/-- On the path of a node, outer references are known by the paths of nodes. -/
theorem base_walkTo? (hd : doc.isDefinition main = true) {node : NodeId}
    (hw : doc.Within main node) :
    ∃ walk, walkTo? doc topology main node = some walk ∧ walk.node = node ∧
      (∀ id path, walk.refHolder = some (id, path) → doc.Within main id ∧ path = doc.pathOf id) ∧
      ∀ base, walk.base = some base → base.IsCanonical doc main := by
  induction hw with
  | refl => exact ⟨_, walkTo?_definition hd, rfl, fun _ _ h => (by cases h), fun _ h => by cases h⟩
  | @step node parent hc hw ih =>
    obtain ⟨walk, hp, hn, hholder, hbase⟩ := ih
    obtain ⟨step, hs, _⟩ := Document.follow?_container hc
    obtain ⟨walk', hp', _, htrail⟩ := walkTo?_spec topology hd hw
    rw [hp] at hp'
    cases hp'
    refine ⟨_, walkTo?_step hd hw hc hs hp hn, rfl, ?_⟩
    obtain ⟨after, hst, heq⟩ := stepped_advance doc topology main node walk step
    rw [heq]
    cases hst with
    | query _ => exact ⟨fun _ _ h => (by cases h), fun _ h => by cases h⟩
    | member | position => exact ⟨hholder, hbase⟩
    | property _ _ _ hp => cases hp <;> exact ⟨hholder, hbase⟩
    | expression _ hctx he =>
      cases he with
      | stay | segment | fixed | nested | join => exact ⟨hholder, hbase⟩
      | looseFilter | decoration => exact ⟨fun _ _ h => (by cases h), hbase⟩
      | filter _ hr =>
        refine ⟨fun _ _ h => (by cases h), fun base h => ?_⟩
        cases h
        obtain ⟨hin, rfl⟩ := hholder _ _ hr
        exact ⟨_, hin, .inr ⟨_, rfl⟩⟩
      | segments =>
        refine ⟨fun id path h => ?_, hbase⟩
        cases h
        exact ⟨hn ▸ hw, by rw [show walk.leave.trail = walk.trail from rfl, htrail]; exact hn ▸ rfl⟩
      | items =>
        refine ⟨hholder, fun base h => ?_⟩
        cases h
        exact ⟨parent, hw, .inl (by rw [show walk.leave.trail = walk.trail from rfl, htrail])⟩

end Walk

/-- The site at the path of a node is a function of its holder. -/
theorem Site.here_of_pathOf (ho : doc.owner? node = some definition)
    (h : Site.analyze doc topology (doc.pathOf node) = .ok site) :
    ∃ walk, Walk.IsWalkTo doc topology definition walk ∧ site = walk.here definition := by
  obtain ⟨hd, hw⟩ := Document.owner?_eq_some_iff.mp ho
  obtain ⟨walk, hto, hn, hr⟩ := Walk.resumes_walkTo? topology hd hw
  rw [Site.analyze_pathOf ho hto] at h
  exact Walk.here_of_finish ⟨hn ▸ hw, hn ▸ hto⟩ hr h

/-- Along the paths of nodes, a holder has one site. -/
theorem Site.eq_of_holder {node' : NodeId} {site' : Site}
    (h : Site.analyze doc topology (doc.pathOf node) = .ok site)
    (h' : Site.analyze doc topology (doc.pathOf node') = .ok site')
    (hh : site.holder = site'.holder) :
    site = site' := by
  obtain ⟨definition, hd⟩ := Site.pathDefinition_of_analyze h
  obtain ⟨definition', hd'⟩ := Site.pathDefinition_of_analyze h'
  obtain ⟨walk, ⟨hw, hto⟩, rfl⟩ := Site.here_of_pathOf (Document.owner?_of_pathDefinition hd) h
  obtain ⟨walk', ⟨hw', hto'⟩, rfl⟩ := Site.here_of_pathOf (Document.owner?_of_pathDefinition hd') h'
  have hnode : walk.node = walk'.node := hh
  have hsame : definition = definition' := by
    have ho : doc.owner? walk.node = some definition :=
      Document.owner?_eq_some_iff.mpr ⟨Document.isDefinition_of_pathDefinition hd, hw⟩
    rw [hnode, Document.owner?_eq_some_iff.mpr
      ⟨Document.isDefinition_of_pathDefinition hd', hw'⟩] at ho
    exact (Option.some.inj ho).symm
  subst hsame
  rw [hnode, hto'] at hto
  cases hto
  rfl

theorem Site.base_of_pathOf {base : BaseRef} (ho : doc.owner? node = some definition)
    (h : Site.analyze doc topology (doc.pathOf node) = .ok site) (hb : site.base = some base) :
    base.IsCanonical doc definition := by
  obtain ⟨walk, ⟨hw, hto⟩, rfl⟩ := Site.here_of_pathOf ho h
  obtain ⟨walk', hto', _, _, hbase⟩ :=
    Walk.base_walkTo? topology (Document.owner?_eq_some_iff.mp ho).1 hw
  rw [hto] at hto'
  cases hto'
  exact hbase base hb

/-! ## Sources -/

namespace Document

variable {item select source : NodeId} {name : String}

variable (doc) in
/-- The nodes on the way from the sources of a `SELECT` to their leaves. -/
inductive OnSpine (select : NodeId) : NodeId → Prop where
  | source {item : NodeId} : doc.prop? select "from" = some item → OnSpine select item
  | args {item list : NodeId} : OnSpine select item → doc.prop? item "args" = some list →
      OnSpine select list
  | arg {list child : NodeId} : OnSpine select list → child ∈ doc.itemsAt list →
      OnSpine select child

theorem OnSpine.within {node : NodeId} (h : doc.OnSpine select node) :
    doc.Within select node ∧ select ≠ node := by
  have hlt : doc.Within select node ∧ select < node := by
    induction h with
    | source h => exact ⟨within_of_container? (container?_of_prop? h).1, (prop?_lt h).1⟩
    | args _ h ih =>
      exact ⟨ih.1.trans (within_of_container? (container?_of_prop? h).1),
        Nat.lt_trans ih.2 (prop?_lt h).1⟩
    | arg _ h ih =>
      exact ⟨ih.1.trans (within_of_container? (container?_of_mem_itemsAt h).1),
        Nat.lt_trans ih.2 (lt_of_mem_itemsAt h).1⟩
  exact ⟨hlt.1, Nat.ne_of_lt hlt.2⟩

/-- The only leaf of a source that is no join is the source itself, and there is no query beside
it. -/
theorem path_of_mem_sourceItems_leaf
    (hl : doc.refPath? source = none → doc.hasProp source "join" = true →
      (doc.propItems source "args").isEmpty = true) (h : .path item name ∈ doc.sourceItems source) :
    item = source ∧ (doc.refPath? source).isSome = true ∧ doc.sourceQueries source = [] := by
  obtain ⟨leaf, hleaf, _⟩ := sourceItems_leaf hl
  rw [hleaf] at h
  obtain rfl := List.mem_singleton.mp h
  have hnone : doc.sourceQueries source = [] := by
    rw [sourceQueries, hleaf, List.flatMap_singleton]
    rfl
  rw [sourceItems] at hleaf
  split at hleaf
  · next hr =>
    split at hleaf
    · cases hleaf
      exact ⟨rfl, by rw [hr]; rfl, hnone⟩
    · cases hleaf
  · split at hleaf
    · next hr hj =>
      rw [if_pos (hl hr hj)] at hleaf
      cases hleaf
    · split at hleaf <;> cases hleaf

theorem path_of_mem_sourceItems_join (hr : doc.refPath? source = none)
    (hj : doc.hasProp source "join" = true) (he : ¬ (doc.propItems source "args").isEmpty = true)
    (h : .path item name ∈ doc.sourceItems source) :
    ∃ arg ∈ doc.propItems source "args", .path item name ∈ doc.sourceItems arg := by
  rw [sourceItems_of_join hr hj he] at h
  rcases List.mem_append.mp h with h | h
  · exact List.mem_flatMap.mp h
  · split at h
    · cases List.mem_singleton.mp h
    · cases h

/-- A leaf is a reference on the spine that lies within none of the queries among the sources. -/
theorem path_of_mem_sourceItems
    (hs : doc.OnSpine select source) (h : .path item name ∈ doc.sourceItems source) :
    doc.OnSpine select item ∧ doc.Within source item ∧ (doc.refPath? item).isSome = true ∧
      ∀ sub ∈ doc.sourceQueries source, ¬ doc.Within sub item := by
  induction source using source_induction doc with
  | leaf source hl =>
    obtain ⟨rfl, href, hnone⟩ := path_of_mem_sourceItems_leaf hl h
    rw [hnone]
    exact ⟨hs, .refl, href, fun sub hsub => by cases hsub⟩
  | join source hr hj he ih =>
    obtain ⟨list, hlist⟩ : ∃ list, doc.prop? source "args" = some list := by
      cases hl : doc.prop? source "args" with
      | none => simp [propItems, hl] at he
      | some list => exact ⟨list, rfl⟩
    have hitems : doc.propItems source "args" = doc.itemsAt list := by simp [propItems, hlist]
    obtain ⟨arg, harg, h⟩ := path_of_mem_sourceItems_join hr hj he h
    have hin : arg ∈ doc.itemsAt list := hitems ▸ harg
    have hc := (container?_of_mem_itemsAt hin).1
    obtain ⟨hspine, hw, href, hsub⟩ := ih arg harg (.arg (.args hs hlist) hin) h
    have hlistw : doc.Within list item := (within_of_container? hc).trans hw
    refine ⟨hspine, (within_of_container? (container?_of_prop? hlist).1).trans hlistw, href, ?_⟩
    intro sub hmem hcontra
    rcases (mem_sourceQueries_of_join hr hj he).mp hmem with ⟨other, hother, hmem⟩
      | ⟨expr, hon, hmem⟩
    · have hother' : doc.Within other item :=
        ((scattered_sourceQueries other).1 sub hmem).trans hcontra
      -- two arguments around one node are the same
      obtain rfl := within_disjoint (container?_of_mem_itemsAt (hitems ▸ hother)).1 hc hother' hw
      exact hsub sub hmem hcontra
    · have hexpr := ((scattered_queriesBelow expr).1 sub hmem).trans hcontra
      exact (apart_of_prop? hlist hon (by decide)).not_within hlistw hexpr

/-- A leaf of the sources of a `SELECT` lies within none of its sub-queries. -/
theorem path_of_mem_selectSources (h : .path item name ∈ doc.selectSources select) :
    doc.OnSpine select item ∧ (doc.refPath? item).isSome = true ∧
      ∀ sub ∈ doc.subqueries select, ¬ doc.Within sub item := by
  unfold selectSources at h
  split at h
  · next source hf =>
    obtain ⟨hs, hw, hr, hsub⟩ := path_of_mem_sourceItems (.source hf) h
    refine ⟨hs, hr, fun sub hmem hcontra => ?_⟩
    rcases List.mem_append.mp hmem with hmem | hmem
    · rw [fromQueries, hf] at hmem
      exact hsub sub hmem hcontra
    · obtain ⟨⟨key, expr⟩, hexpr, hmem⟩ := List.mem_flatMap.mp hmem
      obtain ⟨hentry, hkey⟩ := mem_expressionEntries hexpr
      have hfrom : isExpressionKey "from" = false := by decide
      have hne : "from" ≠ key := by
        rintro rfl
        rw [hfrom] at hkey
        cases hkey
      have hin := ((scattered_queriesBelow expr).1 sub hmem).trans hcontra
      exact (apart_of_prop? hf (prop?_of_mem_entries hentry) hne).not_within hw hin
  · cases h

end Document

theorem Step.eq_key_of_text {step : Step} {c : Char} (h : step.text = name)
    (hc : c ∈ name.toList) (hd : c.isDigit = false) : step = .key name := by
  cases step with
  | key other => exact congrArg Step.key h
  | index position =>
    rw [← h] at hc
    rw [List.all_eq_true.mp (all_isDigit_positionText position) c hc] at hd
    cases hd

theorem Document.step_of_follow? {id child : NodeId} {step : Step} {c : Char}
    (h : doc.follow? id step = some child) (hs : doc.step? child = some (.key name))
    (hc : c ∈ name.toList) (hd : c.isDigit = false) : step = .key name := by
  rcases (container?_of_follow? h).2 with h | h
  · rw [hs] at h
    exact (Option.some.inj h).symm
  · rw [hs] at h
    simp only [Option.some.injEq, Step.key.injEq] at h
    exact Step.eq_key_of_text h.symm hc hd

namespace Walk

variable {definition main next : NodeId} {links : List TopologyLink} {walk : Walk}

theorem enterProperty_from (hq : walk.query.isSome = true) :
    walk.enterProperty doc topology main next "from" =
      { walk with inSources := true }.enter .source := by
  have hmap : MemberMap.ofKey? "from" = none := by decide
  have hat : nameStartsWith "from" "@" = false := by decide
  simp [enterProperty, hmap, hat, hq, enterQueryProperty, queryContext?]

variable (doc topology) in
/-- A node on the spine of the query with an index that is not within one of its sub-queries. -/
def IsSource (i : Nat) (node : NodeId) : Prop :=
  ∃ scope, topology.scope? i = some scope ∧ doc.OnSpine scope.select node ∧
    ∀ sub ∈ doc.subqueries scope.select, ¬ doc.Within sub node

variable (doc topology) in
/-- On the way from a query to its sources, a walk is in the context `source` of that query. -/
structure Sourced (walk : Walk) : Prop where
  query : ∀ i, (walk.node, i) ∈ topology.queryTable →
    walk.context = none ∧ walk.memberMap = none ∧ walk.query = some i
  source : ∀ i, IsSource doc topology i walk.node → walk.context = some .source ∧
    walk.segment = none ∧ walk.inSegments = false ∧ walk.query = some i

theorem IsSource.queryOf?_eq_none (hb : doc.Built definition topology links) {i : Nat}
    {node : NodeId} (h : IsSource doc topology i node) : topology.queryOf? node = none := by
  obtain ⟨scope, hs, hspine, hsub⟩ := h
  cases hq : topology.queryOf? node with
  | none => rfl
  | some j =>
    have hshape : scope.shape ∈ topology.skeleton.shapes := by
      refine List.mem_of_getElem? (i := i) ?_
      rw [Document.getElem?_shapes, hs, Option.map_some]
    rcases hb.sound.cover _ hshape node j (hb.queryOf?_eq_some_iff.mp hq) hspine.within.1 with
      heq | ⟨sub, hmem, hin⟩
    · exact absurd heq.symm hspine.within.2
    · exact absurd hin (hsub sub hmem)

theorem sourced_start (hb : doc.Built definition topology links) :
    Sourced doc topology (start doc definition) := by
  refine ⟨fun i hi => ?_, fun i hsource => ?_⟩
  · exact absurd (hb.within_of_mem hi).2 (Nat.lt_irrefl _)
  · obtain ⟨scope, hs, hspine, _⟩ := hsource
    have hin := hb.within_of_mem (hb.mem_of_scope hs).2
    exact absurd (Nat.lt_of_lt_of_le hin.2 hspine.within.1.le) (Nat.lt_irrefl _)

theorem Sourced.advance (hb : doc.Built definition topology links) (h : Sourced doc topology walk)
    {step : Step} (hf : doc.follow? walk.node step = some next) :
    Sourced doc topology (walk.advance doc topology main step next) := by
  have hcon := (Document.container?_of_follow? hf).1
  rw [advance_eq]
  refine ⟨fun i hi => ?_, fun i (hsource : IsSource doc topology i next) => ?_⟩
  · have hq : topology.queryOf? next = some i := hb.queryOf?_eq_some_iff.mpr hi
    rw [hq]
    exact ⟨rfl, rfl, rfl⟩
  · rw [hsource.queryOf?_eq_none hb]
    obtain ⟨scope, hs, hspine, hsub⟩ := hsource
    have hup : ∀ sub ∈ doc.subqueries scope.select, ¬ doc.Within sub walk.node :=
      fun sub hmem hin => hsub sub hmem (.step hcon hin)
    cases hspine with
    | source hfrom =>
      have hc := Document.container?_of_prop? hfrom
      have hsel : walk.node = scope.select := Option.some.inj (hcon.symm.trans hc.1)
      obtain ⟨hctx, hmap, hq⟩ := h.query i (hsel ▸ (hb.mem_of_scope hs).2)
      obtain rfl := Document.step_of_follow? (c := 'f') hf hc.2 (by decide) (by decide)
      have hmap' : walk.leave.memberMap = none := hmap
      have hq' : walk.leave.query = some i := hq
      rw [hctx]
      dsimp only
      rw [stepStructure, hmap']
      dsimp only
      rw [enterProperty_from (by rw [hq']; rfl)]
      exact ⟨rfl, rfl, rfl, hq⟩
    | @args item list hitem hargs =>
      have hc := Document.container?_of_prop? hargs
      obtain rfl : walk.node = item := Option.some.inj (hcon.symm.trans hc.1)
      obtain ⟨hctx, hseg, _, hq⟩ := h.source i ⟨scope, hs, hitem, hup⟩
      obtain rfl := Document.step_of_follow? (c := 'a') hf hc.2 (by decide) (by decide)
      rw [hctx, hseg]
      exact ⟨hctx, rfl, rfl, hq⟩
    | @arg list child hlist hchild =>
      obtain ⟨hc, position, hpos⟩ := Document.container?_of_mem_itemsAt hchild
      obtain rfl : walk.node = list := Option.some.inj (hcon.symm.trans hc)
      obtain ⟨hctx, hseg, hin, hq⟩ := h.source i ⟨scope, hs, hlist, hup⟩
      rw [hctx, hseg, hin]
      cases step with
      | index p => exact ⟨hctx, rfl, rfl, hq⟩
      | key key =>
        rcases (Document.container?_of_follow? hf).2 with h | h <;> rw [hpos] at h <;> cases h

end Walk

theorem Walk.isSource_of_leaf (hs : topology.scope? i = some scope)
    (hleaf : .path item name ∈ doc.selectSources scope.select) :
    Walk.IsSource doc topology i item :=
  have h := Document.path_of_mem_selectSources hleaf
  ⟨scope, hs, h.1, h.2.2⟩

/-- A leaf of the sources of a query is a reference of the context `source`, on whatever path. -/
theorem Site.context_of_source {links : List TopologyLink}
    (hb : doc.Built definition topology links) (hd : doc.pathDefinition path = .ok definition)
    (h : Site.analyze doc topology path = .ok site) (hs : topology.scope? i = some scope)
    (hleaf : .path item name ∈ doc.selectSources scope.select) (hh : site.holder = item) :
    site.context = .source ∧ site.kind = .reference := by
  obtain ⟨walk, hw, rfl⟩ := Site.here_of_analyze hd h (Walk.sourced_start hb)
    fun _ _ _ hP hf => hP.advance hb hf
  have hn : walk.node = item := hh
  obtain ⟨hctx, _⟩ := hw.source i (hn ▸ Walk.isSource_of_leaf hs hleaf)
  simp [Walk.here, Walk.site, Walk.kindHere, hctx]

/-- The path of a leaf denotes the leaf, as a reference in the query whose source it is. -/
theorem Site.exists_of_source {links : List TopologyLink} (hb : doc.Built definition topology links)
    (ho : doc.owner? item = some definition) (hs : topology.scope? i = some scope)
    (hleaf : .path item name ∈ doc.selectSources scope.select) :
    ∃ site, Site.analyze doc topology (doc.pathOf item) = .ok site ∧ site.kind = .reference ∧
      site.holder = item ∧ site.context = .source ∧ site.query = some i := by
  obtain ⟨hd, hw⟩ := Document.owner?_eq_some_iff.mp ho
  obtain ⟨walk, hto, hn, _⟩ := Walk.walkTo?_spec topology hd hw
  have hsourced : Walk.Sourced doc topology walk :=
    Walk.advanceAll_keeps (fun _ _ _ hP hf => hP.advance hb hf)
      ((Walk.walkTo?_eq_some_iff Path.root).mp hto) (Walk.sourced_start hb)
  obtain ⟨hctx, hseg, hin, hq⟩ := hsourced.source i (hn ▸ Walk.isSource_of_leaf hs hleaf)
  have href : (doc.refPath? walk.node).isSome = true :=
    hn ▸ (Document.path_of_mem_selectSources hleaf).2.1
  refine ⟨walk.site definition .reference walk.node .source, ?_, rfl, hn, rfl, hq⟩
  rw [Site.analyze_pathOf ho hto, Walk.finish, hctx]
  simp [hseg, hin, href]

end SchemaRefs
