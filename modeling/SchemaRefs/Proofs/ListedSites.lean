import SchemaRefs.Proofs.Places

/-!
# The sites of listed paths

The search for references goes by the names of properties; the analysis of a path keeps the context
that the path leads into. A reference object is one to both, wherever it stands in an expression.
But a name below `target` or in a list of names is one to the search at any depth, while inside of
an expression the analysis takes it for a plain value.

Main statement: the analysis of a listed path finds a reference at its node, or says that there are
no rules for it, exactly if the document does not make it misread the node
(`listed_recognized_unless_misread`). The reasons for that are told by the place of the node in its
definition (`Document.Misread`). No listed path is a dead end.
-/

namespace SchemaRefs

variable (doc : Document) in
/-- Names directly below the node are read as references: it is a type, or the target of a
declaration. -/
def Document.StartsNames (definition node : NodeId) : Prop :=
  doc.step? node = some (.key "type") ∨
    (doc.step? node = some (.key "target") ∨ doc.step? node = some (.key "targetAspect")) ∧
      ∃ parent, doc.container? node = some parent ∧ doc.Stands definition parent .declaration

variable (doc : Document) in
/-- Why what is listed at a node of a definition is not recognized. -/
inductive Document.Misread (definition node : NodeId) : Prop where
  /-- A reference or a name that is no part of an expression, below properties that all have a
  meaning. -/
  | outside {place : Place} : doc.Stands definition node place → place ≠ .expression →
      ¬ doc.BelowUnknown definition node → Misread definition node
  | member : doc.IsMember definition node → Misread definition node
  /-- All elements, rather than one. -/
  | all : doc.Stands definition node .expression → doc.string? node = some "*" →
      Misread definition node
  /-- A target within an expression, other than that of a type or of a target. -/
  | target {holder : NodeId} {key : String} : doc.prop? holder key = some node →
      key = "target" ∨ key = "targetAspect" → doc.isString node = true →
      doc.Stands definition holder .expression → ¬ doc.StartsNames definition holder →
      Misread definition node
  /-- A name in a list of names within an expression. -/
  | listed {holder list : NodeId} {key : String} {position : Nat} :
      doc.prop? holder key = some list → isNameList key = true →
      (doc.itemsAt list)[position]? = some node → doc.isString node = true →
      doc.Stands definition holder .expression → Misread definition node

namespace Walk

variable {doc : Document} {topology : Topology} {main next : NodeId} {walk : Walk} {path : Path}
  {atSegments : Bool} {context : Context} {position : Nat} {holder item list node : NodeId}
  {step : Step} {key : String}

/-! ## Walks off segments -/

/-- The walk stands neither at a list of segments nor at a segment. -/
structure OffSegments (walk : Walk) : Prop where
  list : walk.inSegments = false
  segment : walk.segment = none

theorem advance_outside (hq : topology.queryOf? next = none) (hc : walk.context = none)
    (step : Step) :
    walk.advance doc topology main step next =
      walk.goTo step next (walk.leave.stepStructure doc topology main step next) := by
  rw [advance_eq, hq, hc]

theorem advance_inside (hq : topology.queryOf? next = none) (hc : walk.context = some context)
    (step : Step) :
    walk.advance doc topology main step next =
      walk.goTo step next (walk.leave.stepExpression doc context step walk.segment
        walk.inSegments) := by
  rw [advance_eq, hq, hc]

/-- Only `ref` leads to a list of segments. -/
theorem inSegments_advance (h : step ≠ .key "ref") :
    (walk.advance doc topology main step next).inSegments = false := by
  obtain ⟨after, hs, heq⟩ := stepped_advance doc topology main next walk step
  cases hs with
  | expression hq hc _ =>
    rw [advance_inside hq hc]
    exact Bool.eq_false_iff.mpr fun hin => h (inSegments_stepExpression rfl hin).1
  | property _ _ _ hp =>
    rw [heq]
    cases hp <;> rfl
  | query | member | position =>
    rw [heq]
    rfl

/-- Only from a list of segments a step leads to a segment. -/
theorem segment_advance (h : walk.inSegments = false) (step : Step) :
    (walk.advance doc topology main step next).segment = none := by
  obtain ⟨after, hs, heq⟩ := stepped_advance doc topology main next walk step
  rw [heq]
  cases hs with
  | expression _ _ he =>
    cases he with
    | segment _ hin =>
      rw [h] at hin
      cases hin
    | stay | filter | looseFilter | decoration | segments | items | fixed | nested | join => rfl
  | property _ _ _ hp => cases hp <;> rfl
  | query | member | position => rfl

theorem offSegments_advance (h : walk.inSegments = false) (hs : step ≠ .key "ref") :
    OffSegments (walk.advance doc topology main step next) :=
  ⟨inSegments_advance hs, segment_advance h step⟩

theorem walkTo?_prop {child : NodeId} (hd : doc.isDefinition main = true)
    (hw : doc.Within main holder) (hwalk : walkTo? doc topology main holder = some walk)
    (hn : walk.node = holder) (hp : doc.prop? holder key = some child) :
    walkTo? doc topology main child = some (walk.advance doc topology main (.key key) child) :=
  walkTo?_step hd hw (Document.container?_of_prop? hp).1
    (Document.container?_of_prop? hp).2 hwalk hn

theorem walkTo?_item (hd : doc.isDefinition main = true) (hw : doc.Within main list)
    (hwalk : walkTo? doc topology main list = some walk) (hn : walk.node = list)
    (hi : (doc.itemsAt list)[position]? = some item) :
    walkTo? doc topology main item = some (walk.advance doc topology main (.index position) item) :=
  walkTo?_step hd hw (Document.container?_of_getElem?_itemsAt hi).1
    (Document.container?_of_getElem?_itemsAt hi).2 hwalk hn

theorem walkTo?_listed (hd : doc.isDefinition main = true) (hw : doc.Within main holder)
    (hwalk : walkTo? doc topology main holder = some walk) (hn : walk.node = holder)
    (hp : doc.prop? holder key = some list) (hi : (doc.itemsAt list)[position]? = some item) :
    walkTo? doc topology main item =
      some ((walk.advance doc topology main (.key key) list).advance doc topology main
        (.index position) item) :=
  walkTo?_item hd (hw.prop hp) (walkTo?_prop hd hw hwalk hn hp) rfl hi

variable (topology) in
/-- The walk to a node where the search comes is off segments. -/
theorem walkTo?_of_searches (hd : doc.isDefinition main = true) (h : doc.Searches main node) :
    ∃ walk, walkTo? doc topology main node = some walk ∧ walk.node = node ∧ OffSegments walk := by
  induction h with
  | refl => exact ⟨_, walkTo?_definition hd, rfl, rfl, rfl⟩
  | tail hs hv ih =>
    obtain ⟨walk, hwalk, hn, hoff⟩ := ih
    have hw := Document.Searches.within hs
    cases hv with
    | item hi =>
      exact ⟨_, walkTo?_item hd hw hwalk hn hi, rfl, offSegments_advance hoff.list (by simp)⟩
    | property hp hne =>
      exact ⟨_, walkTo?_prop hd hw hwalk hn hp, rfl, offSegments_advance hoff.list (by simp [hne])⟩
    | decoration hr hi hk hc =>
      have hp := (Document.prop?_of_refPath? hr).1
      have hsegment := walkTo?_listed hd hw hwalk hn hp hi
      refine ⟨_, walkTo?_prop hd ((hw.prop hp).item hi) hsegment rfl hc, rfl,
        offSegments_advance (inSegments_advance (by simp)) ?_⟩
      rcases hk with rfl | rfl <;> decide
    | nameless hp hk hi _ =>
      refine ⟨_, walkTo?_listed hd hw hwalk hn hp hi, rfl,
        offSegments_advance (inSegments_advance ?_) (by simp)⟩
      simp [(Document.not_skipped_of_isNameList hk).1]

/-! ## Steps to names -/

/-- A string has no number, nor has a list, unless it stands where a query is expected. -/
theorem queryOf?_prop {options : Options} {links : List TopologyLink}
    (hb : doc.buildTopology options main = .ok (topology, links)) {child : NodeId}
    (hp : doc.prop? holder key = some child) (hno : doc.isQuery child = false)
    (hk : Document.isNameProperty key = true ∨ Document.isNameList key = true) :
    topology.queryOf? child = none := by
  have hstep := (Document.container?_of_prop? hp).2
  cases hq : topology.queryOf? child with
  | none => rfl
  | some index =>
    rcases Document.place_of_queryOf? hb hq with h | ⟨key', hkey, hs⟩ | ⟨_, _, _, _, hs⟩
    · rw [hno] at h
      cases h
    · rw [hstep] at hs
      cases hs
      rcases hkey with rfl | rfl | rfl | rfl <;>
        simp [Document.isNameProperty, Document.isNameList] at hk
    · rw [hstep] at hs
      cases hs

theorem queryOf?_listed {options : Options} {links : List TopologyLink}
    (hb : doc.buildTopology options main = .ok (topology, links))
    (hp : doc.prop? holder key = some list) (hk : Document.isNameList key = true)
    (hi : (doc.itemsAt list)[position]? = some item) (hno : doc.isQuery item = false) :
    topology.queryOf? item = none := by
  obtain ⟨hc, hstep⟩ := Document.container?_of_getElem?_itemsAt hi
  cases hq : topology.queryOf? item with
  | none => rfl
  | some index =>
    rcases Document.place_of_queryOf? hb hq with h | ⟨_, _, hs⟩ | ⟨list', _, hc', hs, _⟩
    · rw [hno] at h
      cases h
    · rw [hstep] at hs
      cases hs
    · obtain rfl := Option.some.inj (hc.symm.trans hc')
      rw [(Document.container?_of_prop? hp).2] at hs
      cases hs
      cases hk

variable (doc topology main walk) in
theorem enterProperty_target (hk : key = "target" ∨ key = "targetAspect") :
    ∃ context, namesReference context = true ∧ walk.enterProperty doc topology main next key =
      if doc.isRefLike next then walk.enter context else { walk with host := next } := by
  rcases hk with rfl | rfl
  · have hmap : MemberMap.ofKey? "target" = none := by decide
    exact ⟨.target, rfl, by simp [enterProperty, hmap]⟩
  · have hmap : MemberMap.ofKey? "targetAspect" = none := by decide
    exact ⟨.targetAspect, rfl, by simp [enterProperty, hmap]⟩

variable (topology main walk) in
theorem enterProperty_name (hk : Document.isNameProperty key = true)
    (hr : key = "type" ∨ doc.isRefLike next = true) :
    ∃ context, namesReference context = true ∧ walk.enterProperty doc topology main next key =
      walk.enter context := by
  by_cases htype : key = "type"
  · subst htype
    exact ⟨.type, rfl, rfl⟩
  · have htarget : key = "target" ∨ key = "targetAspect" := by
      simpa [Document.isNameProperty, htype] using hk
    obtain ⟨context, hname, heq⟩ := enterProperty_target doc topology main walk htarget
    exact ⟨context, hname, heq.trans (if_pos (hr.resolve_left htype))⟩

variable (doc topology main next walk) in
/-- A list of names starts a context, or is unknown outside of queries. -/
theorem enterProperty_names (hk : Document.isNameList key = true) :
    (∃ before context, namesReference context = true ∧
      walk.enterProperty doc topology main next key = enter before context) ∨
      (walk.enterProperty doc topology main next key).context = walk.context := by
  simp only [Document.isNameList, Bool.or_eq_true, beq_iff_eq] at hk
  rcases hk with rfl | rfl
  · exact .inl ⟨walk, .includes, rfl, rfl⟩
  · have hmap : MemberMap.ofKey? "excluding" = none := by decide
    have hat : nameStartsWith "excluding" "@" = false := by decide
    cases hq : walk.query.isSome with
    | true =>
      refine .inl ⟨{ walk with inSources := walk.inSources || "excluding" == "from" },
        .excluding, rfl, ?_⟩
      simp [enterProperty, hmap, hat, hq, enterQueryProperty, queryContext?]
    | false =>
      refine .inr ?_
      simp [enterProperty, hmap, hat, hq]

theorem stepExpression_type :
    walk.stepExpression doc context (.key "type") none atSegments = walk.enter .type :=
  rfl

theorem stepExpression_name
    (hk : key = "target" ∨ key = "targetAspect" ∨ Document.isNameList key = true) :
    walk.stepExpression doc context (.key key) none atSegments = walk := by
  simp only [Document.isNameList, Bool.or_eq_true, beq_iff_eq] at hk
  rcases hk with rfl | rfl | rfl | rfl <;> rfl

/-- At the end of the walk a name is a reference. -/
def ReadsName (walk : Walk) : Prop :=
  ∃ context, walk.context = some context ∧ namesReference context = true ∧ walk.contextDepth ≤ 1

theorem context_name (hq : topology.queryOf? next = none) (hc : walk.context = none)
    (hk : Document.isNameProperty key = true) (hs : doc.isString next = true) :
    (walk.advance doc topology main (.key key) next).context = none ∨
      (walk.advance doc topology main (.key key) next).ReadsName := by
  rw [advance_outside hq hc, stepStructure]
  split
  · exact .inl hc
  · have href : doc.isRefLike next = true := by simp [Document.isRefLike, hs]
    obtain ⟨context, hname, heq⟩ := enterProperty_name topology main walk.leave hk (.inr href)
    rw [heq]
    exact .inr ⟨context, rfl, hname, Nat.zero_le _⟩

theorem context_listed (hl : topology.queryOf? list = none) (hq : topology.queryOf? next = none)
    (hc : walk.context = none) (hk : Document.isNameList key = true) {after : Walk}
    (hafter : after = walk.advance doc topology main (.key key) list) :
    (after.advance doc topology main (.index position) next).context = none ∨
      (after.advance doc topology main (.index position) next).ReadsName := by
  have hlist : after.context = none ∨
      ∃ context, after.context = some context ∧ namesReference context = true ∧
      after.contextDepth = 0 := by
    rw [hafter, advance_outside hl hc, stepStructure]
    split
    · exact .inl hc
    · rcases enterProperty_names doc topology main list walk.leave
        hk with ⟨before, context, hname, heq⟩ | hsame
      · rw [heq]
        exact .inr ⟨context, rfl, hname, rfl⟩
      · exact .inl (hsame.trans hc)
  rcases hlist with hnone | ⟨context, hsome, hname, hdepth⟩
  · left
    rw [advance_outside hq hnone, stepStructure]
    split <;> exact hnone
  · right
    rw [advance_inside hq hsome, stepExpression]
    refine ⟨context, ?_, hname, ?_⟩
    · split <;> exact hsome
    · have hone : after.leave.contextDepth ≤ 1 := by
        rw [leave, hdepth]
      split <;> exact hone

theorem readsName_type (hq : topology.queryOf? next = none) (hc : walk.context = some context)
    (hoff : OffSegments walk) : (walk.advance doc topology main (.key "type") next).ReadsName := by
  rw [advance_inside hq hc, hoff.segment, stepExpression_type]
  exact ⟨.type, rfl, rfl, Nat.zero_le _⟩

variable (doc main) in
theorem context_inside (hq : topology.queryOf? next = none)
    (hc : walk.context = some context) (hoff : OffSegments walk)
    (hk : key = "target" ∨ key = "targetAspect" ∨ Document.isNameList key = true) :
    (walk.advance doc topology main (.key key) next).context = some context ∧
      (walk.advance doc topology main (.key key) next).contextDepth = walk.contextDepth + 1 := by
  rw [advance_inside hq hc, hoff.segment, stepExpression_name hk]
  exact ⟨hc, rfl⟩

variable (doc main) in
theorem context_item (position : Nat) (hq : topology.queryOf? next = none)
    (hc : walk.context = some context) :
    (walk.advance doc topology main (.index position) next).context = some context ∧
      (walk.advance doc topology main (.index position) next).contextDepth =
        walk.contextDepth + 1 := by
  rw [advance_inside hq hc, stepExpression]
  split <;> exact ⟨hc, rfl⟩

/-! ## Where names start -/

/-- The context of the walk is one of names, and starts at its node. -/
def StartsNames (walk : Walk) : Prop :=
  ∃ context, walk.context = some context ∧ namesReference context = true ∧ walk.contextDepth = 0

theorem StartsNames.not_below {p : Prop} {depth : Nat} (h : walk.StartsNames)
    (hdepth : walk.contextDepth = depth + 1) : p := by
  obtain ⟨_, _, _, hzero⟩ := h
  rw [hdepth] at hzero
  cases hzero

theorem StartsNames.not_other {p : Prop} (h : (walk.enter context).StartsNames)
    (hother : namesReference context = false) : p := by
  obtain ⟨_, hc, hname, _⟩ := h
  cases hc
  rw [hother] at hname
  cases hname

/-- Inside of a context, names start at a type. -/
theorem step_of_startsNames_inside {atSegment : Option Nat}
    (h : (walk.leave.stepExpression doc context step atSegment atSegments).StartsNames) :
    step = .key "type" := by
  have hnested : context.nested ≠ context → namesReference context.nested = false := by
    cases context <;> decide
  unfold stepExpression at h
  split at h
  · split at h <;> exact h.not_below rfl
  · split at h
    · split at h
      · exact h.not_other rfl
      · exact h.not_below rfl
    · split at h
      · exact h.not_below rfl
      · split at h
        · exact h.not_other (by split <;> rfl)
        · exact h.not_below rfl
      · split at h
        · exact h.not_other (by split <;> rfl)
        · exact h.not_below rfl
      · rfl
      · split at h
        · next hne => exact h.not_other (hnested hne)
        · exact h.not_below rfl
      · split at h
        · next hne => exact h.not_other (hnested hne)
        · exact h.not_below rfl
      · split at h
        · next hne => exact h.not_other (hnested hne)
        · exact h.not_below rfl
      · split at h
        · exact h.not_other rfl
        · split at h
          · exact h.not_other rfl
          · exact h.not_below rfl

theorem namesReference_conditionContext :
    namesReference (walk.conditionContext topology main).1 = false := by
  unfold conditionContext
  split
  · rfl
  · split
    · rfl
    · split
      · dsimp only
        split <;> rfl
      · split <;> rfl

/-- In a declaration, names start at a type, a target or a list of names. -/
theorem key_of_startsNames_outside
    (h : (walk.leave.enterProperty doc topology main next key).StartsNames) :
    Document.isNameProperty key = true ∨ Document.isNameList key = true := by
  unfold enterProperty at h
  split at h
  · exact h.not_below rfl
  · split at h
    · exact .inl (by decide)
    · exact .inr (by decide)
    · exact .inl (by decide)
    · exact .inl (by decide)
    · exact h.not_below rfl
    · exact h.not_below rfl
    · exact h.not_other rfl
    · exact h.not_other namesReference_conditionContext
    · exact h.not_other rfl
    · exact h.not_other rfl
    · split at h
      · exact h.not_other rfl
      · split at h
        · unfold enterQueryProperty at h
          split at h
          · next context hc =>
            unfold queryContext? at hc
            split at hc <;> cases hc
            · exact h.not_other rfl
            · exact h.not_other rfl
            · exact h.not_other rfl
            · exact h.not_other rfl
            · exact h.not_other rfl
            · exact h.not_other (by split <;> rfl)
            · exact .inr (by decide)
          · split at h <;> exact h.not_below rfl
        · exact h.not_below rfl

theorem startsNames_inside_iff (hshows : Shows doc main walk)
    (hcontext : walk.context = some context) (hc : doc.container? next = some walk.node)
    (hs : doc.step? next = some step) (htype : step = .key "type" → walk.segment = none) :
    (walk.leave.stepExpression doc context step walk.segment walk.inSegments).StartsNames ↔
      doc.StartsNames main next := by
  have hplace : walk.place = .expression := by rw [place_eq_expression_iff, hcontext]; rfl
  constructor
  · intro h
    obtain rfl := step_of_startsNames_inside h
    exact .inl hs
  · rintro (hstep | ⟨_, parent, hparent, hstands⟩)
    · obtain rfl := Option.some.inj (hs.symm.trans hstep)
      rw [htype rfl, stepExpression_type]
      exact ⟨.type, rfl, rfl, rfl⟩
    · obtain rfl := Option.some.inj (hc.symm.trans hparent)
      cases hplace.symm.trans (hshows.place.unique hstands)

theorem startsNames_outside_iff (hstands : doc.Stands main walk.node .declaration)
    (hc : doc.container? next = some walk.node) (hs : doc.step? next = some (.key key))
    (hlist : Document.isNameList key = false)
    (hsome : (walk.leave.enterProperty doc topology main next key).context.isSome = true)
    (hcontext : walk.context = none) :
    (walk.leave.enterProperty doc topology main next key).StartsNames ↔
    doc.StartsNames main next := by
  constructor
  · intro h
    have hname := (key_of_startsNames_outside h).resolve_right (by rw [hlist]; decide)
    simp only [Document.isNameProperty, Bool.or_eq_true, beq_iff_eq] at hname
    rcases hname with (rfl | rfl) | rfl
    · exact .inl hs
    · exact .inr ⟨.inl hs, _, hc, hstands⟩
    · exact .inr ⟨.inr hs, _, hc, hstands⟩
  · rintro (hstep | ⟨hstep, _⟩)
    · cases hs.symm.trans hstep
      exact ⟨.type, rfl, rfl, rfl⟩
    · have htarget : key = "target" ∨ key = "targetAspect" := by
        rw [hs] at hstep
        simpa using hstep
      obtain ⟨context, hname, heq⟩ := enterProperty_target doc topology main walk.leave htarget
      rw [heq] at hsome ⊢
      split at hsome
      · next href =>
        rw [if_pos href]
        exact ⟨context, rfl, hname, rfl⟩
      · have hnone : walk.context.isSome = true := hsome
        rw [hcontext] at hnone
        cases hnone

/-- Names start where the document says, unless the walk has come to a list of names. -/
theorem startsNames_advance_iff (hshows : Shows doc main walk)
    (hc : doc.container? next = some walk.node) (hs : doc.step? next = some step)
    (hlist : ∀ key, step = .key key → Document.isNameList key = false)
    (htype : step = .key "type" → walk.segment = none)
    (hsome : (walk.advance doc topology main step next).context.isSome = true) :
    (walk.advance doc topology main step next).StartsNames ↔ doc.StartsNames main next := by
  have hq : topology.queryOf? next = none := by
    cases hq : topology.queryOf? next with
    | none => rfl
    | some index =>
      rw [advance_eq, hq] at hsome
      cases hsome
  cases hcontext : walk.context with
  | some context =>
    rw [advance_inside hq hcontext]
    exact startsNames_inside_iff hshows hcontext hc hs htype
  | none =>
    have hnone : ∀ {p : Prop}, walk.context.isSome = true → p := by
      rw [hcontext]
      exact fun h => by cases h
    rw [advance_outside hq hcontext] at hsome ⊢
    unfold stepStructure at hsome ⊢
    cases hmap : walk.memberMap with
    | some map =>
      have hmap' : walk.leave.memberMap = some map := hmap
      rw [hmap'] at hsome
      exact hnone hsome
    | none =>
      have hmap' : walk.leave.memberMap = none := hmap
      rw [hmap'] at hsome ⊢
      cases step with
      | index position => exact hnone hsome
      | key key =>
        have hstands : doc.Stands main walk.node .declaration :=
          place_of_declaration hcontext hmap ▸ hshows.place
        exact startsNames_outside_iff hstands hc hs (hlist key rfl) hsome hcontext

/-! ## The end of a walk -/

/-- An outcome of the analysis that finds a reference held by the node, or has no rules for it. -/
def Recognized (node : NodeId) (path : Path) (outcome : Except ModelError Site) : Prop :=
  (∃ site, outcome = .ok site ∧ site.kind = .reference ∧ site.holder = node) ∨
    ∃ key, outcome = .error (.unsupported key path)

/-- An outcome of the analysis that finds a member or a definition at the node, or nothing. -/
def Disregarded (node : NodeId) (path : Path) (outcome : Except ModelError Site) : Prop :=
  (∃ site, outcome = .ok site ∧ site.kind ≠ .reference ∧ site.holder = node) ∨
    outcome = .error (.noReference path)

theorem Recognized.not_disregarded {outcome : Except ModelError Site}
    (h : Recognized node path outcome) : ¬ Disregarded node path outcome := by
  rintro (⟨site, rfl, hk, _⟩ | rfl)
  · rcases h with ⟨site', heq, hk', _⟩ | ⟨key, heq⟩
    · cases heq
      exact hk hk'
    · cases heq
  · rcases h with ⟨site', heq, _⟩ | ⟨key, heq⟩
    · cases heq
    · cases heq

/-- Outside of contexts, the end of the walk is a definition or a member, or was reached by
properties that all have a meaning. -/
def Unmarked (main : NodeId) (walk : Walk) : Prop :=
  walk.node = main ∨ walk.member = some walk.node ∨ walk.unknownKey = none

theorem recognized_outside (hc : walk.context = none) (href : doc.isRefLike walk.node = true)
    (h : ¬ walk.Unmarked main) : Recognized walk.node path (walk.finish doc main path) := by
  simp only [Unmarked, not_or] at h
  obtain ⟨key, hkey⟩ := Option.ne_none_iff_exists'.mp h.2.2
  refine .inr ⟨key, ?_⟩
  simp [finish, hc, h.1, h.2.1, hkey, href]

theorem disregarded_outside (hc : walk.context = none) (h : walk.Unmarked main) :
    Disregarded walk.node path (walk.finish doc main path) := by
  unfold finish
  rw [hc]
  dsimp only
  split
  · exact .inl ⟨_, rfl, (by simp [site]), rfl⟩
  · next hmain =>
    split
    · exact .inl ⟨_, rfl, (by simp [site]), rfl⟩
    · next hmember =>
      have hnone : walk.unknownKey = none := by
        rcases h with h | h | h
        · exact absurd (beq_iff_eq.mpr h) hmain
        · exact absurd (beq_iff_eq.mpr h) hmember
        · exact h
      rw [hnone]
      exact .inr rfl

/-- Inside of a context, a reference and a name in its place are recognized. -/
theorem recognized_inside (hc : walk.context = some context) (hoff : OffSegments walk)
    (h : (doc.refPath? walk.node).isSome = true ∨
      walk.ReadsName ∧ ∃ name, doc.string? walk.node = some name ∧ name ≠ "*") :
    Recognized walk.node path (walk.finish doc main path) := by
  refine .inl ⟨walk.site main .reference walk.node context, ?_, rfl, rfl⟩
  unfold finish
  rw [hc]
  simp only [hoff.list, hoff.segment, Option.isSome_none, Bool.or_self,
    Bool.false_eq_true, if_false]
  rcases h with hr | ⟨⟨context', hc', hname, hdepth⟩, name, hs, hne⟩
  · rw [if_pos hr]
  · rw [hc] at hc'
    cases hc'
    simp [hname, hdepth, hs, hne]

theorem disregarded_inside (hc : walk.context = some context) (hoff : OffSegments walk)
    (hs : doc.isString walk.node = true)
    (h : doc.string? walk.node = some "*" ∨
      ¬ (namesReference context = true ∧ walk.contextDepth ≤ 1)) :
    Disregarded walk.node path (walk.finish doc main path) := by
  have hr : doc.refPath? walk.node = none :=
    Document.refPath?_of_prop? (Document.prop?_of_isString hs "ref")
  refine .inr ?_
  unfold finish
  rw [hc]
  simp only [hoff.list, hoff.segment, Option.isSome_none, Bool.or_self, Bool.false_eq_true,
    if_false, hr]
  rw [if_neg]
  rcases h with h | h
  · simp [h]
  · simp only [Bool.and_eq_true, decide_eq_true_eq]
    exact fun hall => h hall.1

section

variable (hd : doc.isDefinition main = true)
include hd

variable (topology) in
theorem walkTo?_of_notes (hs : doc.Searches main holder) (hn : doc.Notes holder node) :
    ∃ walk, walkTo? doc topology main node = some walk ∧ walk.node = node ∧ OffSegments walk := by
  obtain ⟨walk, hwalk, hnode, hoff⟩ := walkTo?_of_searches topology hd hs
  cases hn with
  | reference => exact ⟨walk, hwalk, hnode, hoff⟩
  | name hp hk =>
    refine ⟨_, walkTo?_prop hd hs.within hwalk hnode hp, rfl, offSegments_advance hoff.list ?_⟩
    simp [(Document.not_skipped_of_isNameProperty hk).1]
  | listed hp hk hi =>
    refine ⟨_, walkTo?_listed hd hs.within hwalk hnode hp hi, rfl,
      offSegments_advance (inSegments_advance ?_) (by simp)⟩
    simp [(Document.not_skipped_of_isNameList hk).1]

omit hd in
theorem isRefLike_of_notes (hn : doc.Notes holder node) : doc.isRefLike node = true := by
  cases hn with
  | reference hr => simp [Document.isRefLike, hr]
  | name _ _ hstr => simp [Document.isRefLike, Document.isString, hstr]
  | listed _ _ _ hstr => simp [Document.isRefLike, hstr]

variable {options : Options} {links : List TopologyLink}
  (hb : doc.buildTopology options main = .ok (topology, links))
include hb

theorem shows_of_walkTo? (hw : doc.Within main node)
    (hwalk : walkTo? doc topology main node = some walk) : Shows doc main walk := by
  have hq : ∀ node, (topology.queryOf? node).isSome = true ↔ doc.IsQueryPart main node :=
    fun node => Model.isSome_queryOf?_iff (m := ⟨doc, options⟩) hb
  obtain ⟨walk', hwalk', _, hshows⟩ := shows_walkTo? hq hd hw
  rw [hwalk] at hwalk'
  cases hwalk'
  exact hshows

theorem startsNames_iff_of_step {parent : NodeId} {before : Walk} (hw : doc.Within main parent)
    (hbefore : walkTo? doc topology main parent = some before) (hn : before.node = parent)
    (hc : doc.container? node = some parent) (hs : doc.step? node = some step)
    (hlist : ∀ key, step = .key key → Document.isNameList key = false)
    (htype : step = .key "type" → before.segment = none)
    (hwalk : walkTo? doc topology main node = some walk) (hsome : walk.context.isSome = true) :
    walk.StartsNames ↔ doc.StartsNames main node := by
  rw [walkTo?_step hd hw hc hs hbefore hn] at hwalk
  cases hwalk
  exact startsNames_advance_iff (shows_of_walkTo? hd hb hw hbefore) (hn ▸ hc) hs hlist htype hsome

/-- Where the search comes, names start where the document says. -/
theorem startsNames_iff_of_searches (hs : doc.Searches main holder)
    (hwalk : walkTo? doc topology main holder = some walk) (hsome : walk.context.isSome = true) :
    walk.StartsNames ↔ doc.StartsNames main holder := by
  cases hs with
  | refl =>
    rw [walkTo?_definition hd] at hwalk
    cases hwalk
    cases hsome
  | @tail parent _ hs hv =>
    obtain ⟨before, hbefore, hn, hoff⟩ := walkTo?_of_searches topology hd hs
    have hw := Document.Searches.within hs
    cases hv with
    | item hi =>
      obtain ⟨hc, hstep⟩ := Document.container?_of_getElem?_itemsAt hi
      exact startsNames_iff_of_step hd hb hw hbefore hn hc hstep (by simp) (by simp) hwalk hsome
    | property hp _ _ _ hlist =>
      obtain ⟨hc, hstep⟩ := Document.container?_of_prop? hp
      refine startsNames_iff_of_step hd hb hw hbefore hn hc hstep (fun key heq => ?_)
        (fun _ => hoff.segment) hwalk hsome
      cases heq
      exact hlist
    | decoration hr hi hk hprop =>
      have hp := (Document.prop?_of_refPath? hr).1
      obtain ⟨hc, hstep⟩ := Document.container?_of_prop? hprop
      refine startsNames_iff_of_step hd hb ((hw.prop hp).item hi)
        (walkTo?_listed hd hw hbefore hn hp hi) rfl hc
        hstep (fun key heq => ?_) (fun heq => ?_) hwalk hsome
      · cases heq
        rcases hk with rfl | rfl <;> rfl
      · rcases hk with rfl | rfl <;> simp at heq
    | nameless hp _ hi =>
      obtain ⟨hc, hstep⟩ := Document.container?_of_getElem?_itemsAt hi
      exact startsNames_iff_of_step hd hb (hw.prop hp) (walkTo?_prop hd hw hbefore hn hp) rfl hc
        hstep (by simp) (by simp) hwalk hsome

/-! ## What is misread -/

omit hd hb in
theorem unmarked_iff (hshows : Shows doc main walk) :
    walk.Unmarked main ↔ doc.IsMember main walk.node ∨ ¬ doc.BelowUnknown main walk.node := by
  have hunknown : walk.unknownKey = none ↔ ¬ doc.BelowUnknown main walk.node := by
    rw [← hshows.unknown, Option.not_isSome_iff_eq_none]
  rw [Unmarked, hunknown, hshows.member]
  refine ⟨fun h => ?_, .inr⟩
  rcases h with h | h
  · rw [h]
    exact .inr Document.not_belowUnknown_definition
  · exact h

omit hd hb in
/-- A reference is recognized in every context, and a name where the walk reads names. -/
theorem recognized_or_misread (hshows : Shows doc main walk) (hoff : OffSegments walk)
    (href : doc.isRefLike walk.node = true)
    (h : walk.context = none ∨ (doc.refPath? walk.node).isSome = true ∨ walk.ReadsName) :
    Recognized walk.node path (walk.finish doc main path) ∨ doc.Misread main walk.node := by
  cases hc : walk.context with
  | none =>
    by_cases hun : walk.Unmarked main
    · rcases (unmarked_iff hshows).mp hun with hmember | hknown
      · exact .inr (.member hmember)
      · refine .inr (.outside hshows.place (fun heq => ?_) hknown)
        rw [place_eq_expression_iff, hc] at heq
        cases heq
    · exact .inl (recognized_outside hc href hun)
  | some context =>
    cases hr : (doc.refPath? walk.node).isSome with
    | true => exact .inl (recognized_inside hc hoff (.inl hr))
    | false =>
      obtain ⟨name, hname⟩ : ∃ name, doc.string? walk.node = some name := by
        rw [Document.isRefLike, hr, Bool.or_false] at href
        exact Document.exists_string?_of_isString href
      by_cases hall : name = "*"
      · subst hall
        exact .inr (.all (hshows.expression hc) hname)
      · have hreads : walk.ReadsName := by
          rcases h with h | h | h
          · rw [hc] at h
            cases h
          · rw [hr] at h
            cases h
          · exact h
        exact .inl (recognized_inside hc hoff (.inr ⟨hreads, name, hname, hall⟩))

theorem reads_or_misread_of_name {before : Walk} (hs : doc.Searches main holder)
    (hbefore : walkTo? doc topology main holder = some before) (hnode : before.node = holder)
    (hoff : OffSegments before) (hp : doc.prop? holder key = some node)
    (hk : Document.isNameProperty key = true) (hstr : doc.isString node = true)
    (heq : walk = before.advance doc topology main (.key key) node) :
    walk.context = none ∨ walk.ReadsName ∨ doc.Misread main node := by
  have hq := queryOf?_prop hb hp (Document.isQuery_of_isString hstr) (.inl hk)
  cases hc : before.context with
  | none =>
    rw [heq]
    exact (context_name hq hc hk hstr).imp_right .inl
  | some context =>
    by_cases htype : key = "type"
    · subst htype
      rw [heq]
      exact .inr (.inl (readsName_type hq hc hoff))
    · have htarget : key = "target" ∨ key = "targetAspect" := by
        simpa [Document.isNameProperty, htype] using hk
      by_cases hnames : before.StartsNames
      · obtain ⟨context', hc', hname, hdepth⟩ := hnames
        rw [hc] at hc'
        cases hc'
        obtain ⟨hsame, hdepth'⟩ := context_inside doc main hq hc hoff (htarget.imp_right .inl)
        rw [heq]
        exact .inr (.inl ⟨context, hsame, hname, by rw [hdepth', hdepth]⟩)
      · rw [startsNames_iff_of_searches hd hb hs hbefore (by rw [hc]; rfl)] at hnames
        have hstands := (shows_of_walkTo? hd hb hs.within hbefore).expression hc
        exact .inr (.inr (.target hp htarget hstr (hnode ▸ hstands) hnames))

theorem reads_or_misread_of_item {before : Walk} (hs : doc.Searches main holder)
    (hbefore : walkTo? doc topology main holder = some before) (hnode : before.node = holder)
    (hp : doc.prop? holder key = some list) (hk : Document.isNameList key = true)
    (hi : (doc.itemsAt list)[position]? = some node) (hstr : doc.isString node = true)
    (heq : walk = (before.advance doc topology main (.key key) list).advance doc topology main
      (.index position) node) :
    walk.context = none ∨ walk.ReadsName ∨ doc.Misread main node := by
  cases hc : before.context with
  | none =>
    have hl := queryOf?_prop hb hp (Document.isQuery_of_isArray
      (Document.isArray_of_getElem?_itemsAt hi)) (.inr hk)
    have hq := queryOf?_listed hb hp hk hi (Document.isQuery_of_isString hstr)
    rw [heq]
    exact (context_listed hl hq hc hk rfl).imp_right .inl
  | some context =>
    -- inside of a context, an item is two steps away from its start at least
    have hstands := (shows_of_walkTo? hd hb hs.within hbefore).expression hc
    exact .inr (.inr (.listed hp hk hi hstr (hnode ▸ hstands)))

/-- What the search takes down is recognized or misread. -/
theorem recognized_or_misread_of_notes (hs : doc.Searches main holder)
    (hn : doc.Notes holder node) (hwalk : walkTo? doc topology main node = some walk) :
    Recognized node path (walk.finish doc main path) ∨ doc.Misread main node := by
  obtain ⟨walk', hwalk', rfl, hoff⟩ := walkTo?_of_notes topology hd hs hn
  rw [hwalk] at hwalk'
  cases hwalk'
  have hshows := shows_of_walkTo? hd hb (hs.within.trans hn.within) hwalk
  have href := isRefLike_of_notes hn
  obtain ⟨before, hbefore, hnode, hoff'⟩ := walkTo?_of_searches topology hd hs
  have hreads : walk.context = none ∨ walk.ReadsName ∨ doc.Misread main walk.node →
      Recognized walk.node path (walk.finish doc main path) ∨ doc.Misread main walk.node := by
    rintro (hnone | hname | hmisread)
    · exact recognized_or_misread hshows hoff href (.inl hnone)
    · exact recognized_or_misread hshows hoff href (.inr (.inr hname))
    · exact .inr hmisread
  cases hn with
  | reference hr => exact recognized_or_misread hshows hoff href (.inr (.inl (by rw [hr]; rfl)))
  | name hp hk hstr =>
    have heq := hwalk.symm.trans (walkTo?_prop hd hs.within hbefore hnode hp)
    exact hreads (reads_or_misread_of_name hd hb hs hbefore hnode hoff' hp hk
      (by rw [Document.isString, hstr]; rfl) (Option.some.inj heq))
  | listed hp hk hi hstr =>
    have heq := hwalk.symm.trans (walkTo?_listed hd hs.within hbefore hnode hp hi)
    exact hreads (reads_or_misread_of_item hd hb hs hbefore hnode hp hk hi hstr
      (Option.some.inj heq))

/-- What is misread is not recognized. -/
theorem disregarded_of_misread (h : doc.Misread main node) (hs : doc.Searches main holder)
    (hn : doc.Notes holder node) (hwalk : walkTo? doc topology main node = some walk) :
    Disregarded node path (walk.finish doc main path) := by
  obtain ⟨walk', hwalk', rfl, hoff⟩ := walkTo?_of_notes topology hd hs hn
  rw [hwalk] at hwalk'
  cases hwalk'
  have hshows := shows_of_walkTo? hd hb (hs.within.trans hn.within) hwalk
  obtain ⟨before, hbefore, hnode, hoff'⟩ := walkTo?_of_searches topology hd hs
  have hshows' := shows_of_walkTo? hd hb hs.within hbefore
  cases h with
  | outside hstands hne hknown =>
    exact disregarded_outside (hshows.context_eq_none hstands hne)
      ((unmarked_iff hshows).mpr (.inr hknown))
  | member hmember =>
    exact disregarded_outside (hshows.context_eq_none hmember.stands (by decide))
      ((unmarked_iff hshows).mpr (.inl hmember))
  | all hstands hall =>
    obtain ⟨context, hc⟩ := hshows.context_eq_some hstands
    exact disregarded_inside hc hoff (by rw [Document.isString, hall]; rfl) (.inl hall)
  | target hp hk hstr hstands hno =>
    obtain rfl := hn.holder_of_prop? hp hstr
    obtain ⟨context, hc⟩ := hshows'.context_eq_some (hnode ▸ hstands)
    rw [← startsNames_iff_of_searches hd hb hs hbefore (by rw [hc]; rfl)] at hno
    have hq := queryOf?_prop hb hp (Document.isQuery_of_isString hstr)
      (.inl (Document.isNameProperty_of_target hk))
    obtain ⟨hsame, hdepth⟩ := context_inside doc main hq hc hoff' (hk.imp_right .inl)
    have hend := Option.some.inj (hwalk.symm.trans (walkTo?_prop hd hs.within hbefore hnode hp))
    rw [← hend] at hsame hdepth
    refine disregarded_inside hsame hoff hstr (.inr fun hreads => hno ⟨context, hc, hreads.1, ?_⟩)
    omega
  | @listed _ _ _ position hp hk hi hstr hstands =>
    obtain rfl := hn.holder_of_item hp hi hstr
    obtain ⟨context, hc⟩ := hshows'.context_eq_some (hnode ▸ hstands)
    have hl := queryOf?_prop hb hp (Document.isQuery_of_isArray
      (Document.isArray_of_getElem?_itemsAt hi)) (.inr hk)
    have hq := queryOf?_listed hb hp hk hi (Document.isQuery_of_isString hstr)
    obtain ⟨hlist, hdepth⟩ := context_inside doc main hl hc hoff' (.inr (.inr hk))
    obtain ⟨hitem, hdepth'⟩ := context_item doc main position hq hlist
    have hend := Option.some.inj
      (hwalk.symm.trans (walkTo?_listed hd hs.within hbefore hnode hp hi))
    rw [← hend] at hitem hdepth'
    refine disregarded_inside hitem hoff hstr (.inr fun hreads => ?_)
    have := hreads.2
    omega

end

end Walk

namespace Model

open CacheM

/-- Every path that is listed for a definition leads to a node within it. What stands there is
recognized as a reference that the node holds, or as one without rules, unless it is misread. -/
theorem listed_recognized_unless_misread {m : Model} {definition : NodeId} {topology : Topology}
    {links : List TopologyLink} (hd : m.doc.isDefinition definition = true)
    (hb : m.doc.buildTopology m.options definition = .ok (topology, links)) {path : Path}
    (hp : path ∈ m.doc.referencePaths definition) :
    ∃ node, m.doc.owner? node = some definition ∧ m.doc.pathOf node = path ∧
      m.doc.nodeAt? path = some node ∧
      (Walk.Recognized node path (Site.analyze m.doc topology path) ↔
        ¬ m.doc.Misread definition node) ∧
      (Walk.Disregarded node path (Site.analyze m.doc topology path) ↔
        m.doc.Misread definition node) := by
  obtain ⟨holder, node, hs, hn, rfl⟩ := Document.mem_referencePaths_iff.mp hp
  have ho := Document.owner?_eq_some_iff.mpr ⟨hd, hs.within.trans hn.within⟩
  obtain ⟨walk, hwalk, _⟩ := Walk.walkTo?_of_notes topology hd hs hn
  rw [Site.analyze_pathOf ho hwalk]
  have hmisread : m.doc.Misread definition node →
      Walk.Disregarded node (m.doc.pathOf node)
        (walk.finish m.doc definition (m.doc.pathOf node)) :=
    fun h => Walk.disregarded_of_misread hd hb h hs hn hwalk
  refine ⟨node, ho, rfl, Document.nodeAt?_pathOf hn.lt_size, ?_⟩
  rcases Walk.recognized_or_misread_of_notes hd hb hs hn hwalk with hrec | hmis
  · have hnot : ¬ m.doc.Misread definition node := fun h => hrec.not_disregarded (hmisread h)
    exact ⟨⟨fun _ => hnot, fun _ => hrec⟩, fun h => absurd h hrec.not_disregarded, hmisread⟩
  · exact ⟨⟨fun h => absurd (hmisread hmis) h.not_disregarded, fun h => absurd hmis h⟩,
      fun _ => hmis, hmisread⟩

/-! ### A note with a target -/

/-- Books with a note that has a target of its own, and a member that is declared by a reference. -/
def noteModel : Model :=
  ⟨.ofDefinitions [
    ("Books", .object [
      ("@note", .object [("target", .string "Reader")]),
      ("elements", .object [
        ("shelf", .object [("target", .string "Shelves")]),
        ("place", .object [("ref", .array [.string "shelf"])])])]),
    ("Shelves", .object [("elements", .object [])])], {}⟩

/-- The target of the member is recognized. The note is misread. -/
theorem noteModel_recognized_or_misread :
    noteModel.doc.buildTopology {} 2 = .ok (⟨2, [], []⟩, [.parent 6 2, .parent 8 2]) ∧
      noteModel.doc.pathOf 7 ∈ noteModel.doc.referencePaths 2 ∧
      noteModel.doc.pathOf 4 ∈ noteModel.doc.referencePaths 2 ∧
      ¬ noteModel.doc.Misread 2 7 ∧ noteModel.doc.Misread 2 4 := by
  have hd : noteModel.doc.isDefinition 2 = true := by decide +kernel
  have hb : noteModel.doc.buildTopology noteModel.options 2 =
      .ok (⟨2, [], []⟩, [.parent 6 2, .parent 8 2]) :=
    eq_ok_of_toOption (by decide +kernel)
  have hshelf : noteModel.doc.pathOf 7 ∈ noteModel.doc.referencePaths 2 := by decide +kernel
  have hnote : noteModel.doc.pathOf 4 ∈ noteModel.doc.referencePaths 2 := by decide +kernel
  refine ⟨hb, hshelf, hnote, ?_, ?_⟩
  · obtain ⟨node, _, _, hn, hrec, _⟩ := listed_recognized_unless_misread hd hb hshelf
    obtain rfl : 7 = node := Option.some.inj (Eq.trans (by decide +kernel) hn)
    refine hrec.mp (.inl ⟨⟨.reference, 7, .target, 2, none, some 6, some 2, none⟩, ?_, rfl, rfl⟩)
    exact eq_ok_of_toOption (by decide +kernel)
  · obtain ⟨node, _, _, hn, _, hdis⟩ := listed_recognized_unless_misread hd hb hnote
    obtain rfl : 4 = node := Option.some.inj (Eq.trans (by decide +kernel) hn)
    exact hdis.mp (.inr (by decide +kernel))

/-- Not all that is listed is a reference to the analysis: it finds nothing at the target of the
note, and a member at the reference that declares one. -/
theorem listed_note_is_no_reference :
    noteModel.doc.buildTopology {} 2 = .ok (⟨2, [], []⟩, [.parent 6 2, .parent 8 2]) ∧
      (noteModel.doc.pathOf 4 ∈ noteModel.doc.referencePaths 2 ∧
        Site.analyze noteModel.doc ⟨2, [], []⟩ (noteModel.doc.pathOf 4) =
          .error (.noReference (noteModel.doc.pathOf 4)) ∧
        (exec (noteModel.inspect (noteModel.doc.pathOf 4)) Cache.empty).1 =
          .error (.model (.noReference (noteModel.doc.pathOf 4)))) ∧
      (noteModel.doc.pathOf 8 ∈ noteModel.doc.referencePaths 2 ∧
        Site.analyze noteModel.doc ⟨2, [], []⟩ (noteModel.doc.pathOf 8) =
          .ok ⟨.member, 8, .member, 2, none, some 8, some 2, none⟩) := by
  refine ⟨eq_ok_of_toOption ?_, ⟨?_, ?_, ?_⟩, ?_, eq_ok_of_toOption ?_⟩ <;> decide +kernel

end Model

end SchemaRefs
