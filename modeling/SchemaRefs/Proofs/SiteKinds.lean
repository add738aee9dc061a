import SchemaRefs.Proofs.Holders

/-!
# What stands at a node

A position in an object is a property of digits, so that several paths can lead to one node. They
need not agree on the context of a reference, for a position among the segments of a reference has a
meaning and a property of digits has none. But they agree on what stands at the node
(`Site.kind_of_holder`): walks to one node are parallel (`Walk.Parallel`), they enter and leave
contexts together.
-/

namespace SchemaRefs

variable {definition : NodeId} {path path' : Path} {site site' : Site}

namespace Walk

variable {doc : Document} {topology : Topology} {main next : NodeId} {a b : Walk}
  {step step' : Step} {key : String} {walk : Walk}

/-! ## Parallel walks -/

/-- Both walks have come to one node and see the same maps of members from there, inside or outside
of all contexts. They know the same parent of the last member. -/
structure Parallel (a b : Walk) : Prop where
  node : a.node = b.node
  context : a.context.isSome = b.context.isSome
  memberMap : a.memberMap = b.memberMap
  host : a.host = b.host
  memberParent : a.memberParent = b.memberParent
  query : a.context = none → a.query.isSome = b.query.isSome

theorem Parallel.refl (walk : Walk) : Parallel walk walk :=
  ⟨rfl, rfl, rfl, rfl, rfl, fun _ => rfl⟩

theorem Parallel.context_eq_none (h : Parallel a b) (hc : a.context = none) : b.context = none := by
  have := h.context
  rw [hc] at this
  exact Option.isNone_iff_eq_none.mp (by simpa using this.symm)

theorem Parallel.enter (h : Parallel a b) (context context' : Context) :
    Parallel (a.enter context) (b.enter context') :=
  ⟨h.node, rfl, h.memberMap, h.host, h.memberParent, fun hn => by cases hn⟩

theorem Parallel.leave (h : Parallel a b) : Parallel a.leave b.leave :=
  ⟨h.node, h.context, h.memberMap, h.host, h.memberParent, h.query⟩

theorem isSome_queryContext? (a b : Walk) (key : String) :
    (a.queryContext? key).isSome = (b.queryContext? key).isSome := by
  unfold queryContext?
  split <;> rfl

theorem Parallel.enterQueryProperty (h : Parallel a b) (key : String) :
    Parallel (a.enterQueryProperty key) (b.enterQueryProperty key) := by
  have hc := isSome_queryContext? a b key
  unfold Walk.enterQueryProperty
  cases ha : a.queryContext? key with
  | none =>
    cases hb : b.queryContext? key with
    | none =>
      dsimp only
      split
      · exact h
      · exact ⟨h.node, h.context, h.memberMap, h.host, h.memberParent, h.query⟩
    | some context =>
      rw [ha, hb] at hc
      cases hc
  | some context =>
    cases hb : b.queryContext? key with
    | none =>
      rw [ha, hb] at hc
      cases hc
    | some context' =>
      exact ⟨h.node, rfl, h.memberMap, h.host, h.memberParent, fun hn => by cases hn⟩

theorem Parallel.enterProperty (h : Parallel a b) (hc : a.context = none) (key : String) :
    Parallel (a.enterProperty doc topology main next key)
      (b.enterProperty doc topology main next key) := by
  have hhost : Parallel { a with host := next } { b with host := next } :=
    ⟨h.node, h.context, h.memberMap, rfl, h.memberParent, h.query⟩
  unfold Walk.enterProperty
  cases hm : (MemberMap.ofKey? key).filter fun _ => doc.isObject next with
  | some map => exact ⟨h.node, h.context, rfl, h.host, h.memberParent, h.query⟩
  | none =>
    dsimp only
    split
    · exact h.enter _ _
    · exact h.enter _ _
    · split
      · exact h.enter _ _
      · exact hhost
    · split
      · exact h.enter _ _
      · exact hhost
    · exact hhost
    · exact h
    · exact h.enter _ _
    · exact ⟨h.node, rfl, h.memberMap, h.host, h.memberParent, fun hn => by cases hn⟩
    · exact h.enter _ _
    · exact h.enter _ _
    · rw [h.query hc]
      split
      · exact h.enter _ _
      · split
        · exact h.enterQueryProperty key
        · exact ⟨h.node, h.context, h.memberMap, h.host, h.memberParent, h.query⟩

/-! ## Properties of digits -/

theorem absurd_of_digits {word : String} (hkey : key.toList.all Char.isDigit = true)
    (heq : key = word) (hno : word.toList.all Char.isDigit = false) {p : Prop} : p := by
  rw [← heq, hkey] at hno
  cases hno

theorem nameStartsWith_at_of_digits (hkey : key.toList.all Char.isDigit = true) :
    nameStartsWith key "@" = false := by
  cases hstart : nameStartsWith key "@" with
  | false => rfl
  | true =>
    have hmem : '@' ∈ key.toList :=
      (List.isPrefixOf_iff_prefix.mp hstart).subset (List.mem_singleton.mpr rfl)
    exact absurd (List.all_eq_true.mp hkey '@' hmem) (by decide)

/-- A property of digits means nothing outside of the contexts. -/
theorem enterProperty_of_digits (hkey : key.toList.all Char.isDigit = true) :
    walk.enterProperty doc topology main next key = { walk with unknownKey := some key } := by
  have hmap : MemberMap.ofKey? key = none := by
    unfold MemberMap.ofKey?
    split
    case h_6 => rfl
    all_goals exact absurd_of_digits hkey rfl (by decide)
  have hclause : walk.queryContext? key = none := by
    unfold queryContext?
    split
    case h_8 => rfl
    all_goals exact absurd_of_digits hkey rfl (by decide)
  have hargs : ¬ (key == "args") = true :=
    fun heq => absurd_of_digits hkey (eq_of_beq heq) (by decide)
  unfold Walk.enterProperty
  rw [hmap]
  dsimp only [Option.filter_none]
  split
  case h_11 =>
    rw [nameStartsWith_at_of_digits hkey, if_neg Bool.false_ne_true]
    split
    · unfold Walk.enterQueryProperty
      rw [hclause]
      exact if_neg hargs
    · rfl
  all_goals exact absurd_of_digits hkey rfl (by decide)

/-- The second step is the first one, or reads like it. -/
def ReadsAs (step step' : Step) : Prop :=
  step = step' ∨ ∃ position, step = .index position ∧ step' = .key (Step.positionText position)

theorem Parallel.trans {c : Walk} (h : Parallel a b) (h' : Parallel b c) : Parallel a c :=
  ⟨h.node.trans h'.node, h.context.trans h'.context, h.memberMap.trans h'.memberMap,
    h.host.trans h'.host,
    h.memberParent.trans h'.memberParent, fun hc =>
      (h.query hc).trans (h'.query (h.context_eq_none hc))⟩

theorem Parallel.symm (h : Parallel a b) : Parallel b a :=
  ⟨h.node.symm, h.context.symm, h.memberMap.symm, h.host.symm, h.memberParent.symm,
    fun hc => (h.query (Option.isNone_iff_eq_none.mp (by simpa [hc] using h.context))).symm⟩

theorem Parallel.stepStructure (h : Parallel a b) (hc : a.context = none)
    (hs : ReadsAs step step') :
    Parallel (a.stepStructure doc topology main step next)
      (b.stepStructure doc topology main step' next) := by
  unfold Walk.stepStructure
  rw [← h.memberMap]
  cases a.memberMap with
  | some map => exact ⟨h.node, h.context, rfl, rfl, congrArg some h.host, h.query⟩
  | none =>
    rcases hs with rfl | ⟨position, rfl, rfl⟩
    · cases step with
      | index position => exact h
      | key key => exact h.enterProperty hc key
    · dsimp only
      rw [enterProperty_of_digits (Step.all_isDigit_positionText position)]
      exact ⟨h.node, h.context, h.memberMap, h.host, h.memberParent, h.query⟩

/-- A step inside a context does not leave it, and enters no map of members. -/
theorem ExpressionStep.keeps {after : Walk} {context : Context} {atSegment : Option Nat}
    {atSegments : Bool} (h : ExpressionStep doc walk context atSegment atSegments after)
    (hc : walk.context.isSome = true) :
    after.node = walk.node ∧ after.context.isSome = true ∧ after.memberMap = walk.memberMap ∧
      after.host = walk.host ∧ after.memberParent = walk.memberParent := by
  cases h with
  | stay | segment | decoration | segments => exact ⟨rfl, hc, rfl, rfl, rfl⟩
  | filter | looseFilter | items | fixed | nested | join => exact ⟨rfl, rfl, rfl, rfl, rfl⟩

theorem Parallel.stepExpression (h : Parallel a b) (hc : a.context.isSome = true)
    (context context' : Context) (step step' : Step) (segment segment' : Option Nat)
    (segments segments' : Bool) :
    Parallel (a.stepExpression doc context step segment segments)
      (b.stepExpression doc context' step' segment' segments') := by
  obtain ⟨hnode, hctx, hmap, hhost, hparent⟩ :=
    (expressionStep_stepExpression context step segment segments :
    ExpressionStep doc a context segment segments _).keeps hc
  obtain ⟨hnode', hctx', hmap', hhost', hparent'⟩ :=
    (expressionStep_stepExpression context' step' segment' segments' :
      ExpressionStep doc b context' segment' segments' _).keeps (h.context ▸ hc)
  refine ⟨hnode.trans (h.node.trans hnode'.symm), hctx.trans hctx'.symm,
    hmap.trans (h.memberMap.trans hmap'.symm), hhost.trans (h.host.trans hhost'.symm),
    hparent.trans (h.memberParent.trans hparent'.symm), fun hn => ?_⟩
  rw [hn] at hctx
  cases hctx

theorem Parallel.goTo (h : Parallel a b) (before before' : Walk) (step step' : Step) :
    Parallel (before.goTo step next a) (before'.goTo step' next b) :=
  ⟨rfl, h.context, h.memberMap, h.host, h.memberParent, h.query⟩

/-- Steps onto one node that read alike keep walks parallel. -/
theorem Parallel.advance (h : Parallel a b) (hs : ReadsAs step step') :
    Parallel (a.advance doc topology main step next) (b.advance doc topology main step' next) := by
  rw [advance_eq, advance_eq]
  cases hq : topology.queryOf? next with
  | some index => exact ⟨rfl, rfl, rfl, rfl, h.memberParent, fun _ => rfl⟩
  | none =>
    dsimp only
    cases hc : a.context with
    | none =>
      rw [h.context_eq_none hc]
      exact (h.leave.stepStructure hc hs).goTo a b step step'
    | some context =>
      obtain ⟨context', hc'⟩ : ∃ context', b.context = some context' :=
        Option.isSome_iff_exists.mp (by rw [← h.context, hc]; rfl)
      rw [hc']
      exact (h.leave.stepExpression (Option.isSome_iff_exists.mpr ⟨context, hc⟩) ..).goTo a b
        step step'

/-! ## All paths to a node -/

variable (doc topology main) in
/-- The walk is parallel to the one along the path of its node. -/
def OnCourse (walk : Walk) : Prop :=
  ∃ course, IsWalkTo doc topology main course ∧ Parallel walk course

variable (topology) in
theorem onCourse_start (hd : doc.isDefinition main = true) :
    OnCourse doc topology main (start doc main) :=
  ⟨_, ⟨.refl, walkTo?_definition hd⟩, .refl _⟩

theorem readsAs_of_follow? {id child : NodeId} (h : doc.follow? id step = some child)
    (hs : doc.step? child = some step') : ReadsAs step step' := by
  rcases (Document.container?_of_follow? h).2 with h | h
  · rw [hs] at h
    exact .inl (Option.some.inj h).symm
  · rw [hs] at h
    cases h
    cases step with
    | key key => exact .inl rfl
    | index position => exact .inr ⟨position, rfl, rfl⟩

theorem OnCourse.advance (hd : doc.isDefinition main = true)
    (h : OnCourse doc topology main walk) (hf : doc.follow? walk.node step = some next) :
    OnCourse doc topology main (walk.advance doc topology main step next) := by
  obtain ⟨course, ⟨hw, hto⟩, hpar⟩ := h
  have hc := (Document.container?_of_follow? hf).1
  rw [hpar.node] at hc
  obtain ⟨step', hs, _⟩ := Document.follow?_container hc
  exact ⟨_, ⟨.step hc hw, walkTo?_step hd hw hc hs hto rfl⟩,
    hpar.advance (readsAs_of_follow? hf hs)⟩

theorem Parallel.kindHere (h : Parallel a b) : a.kindHere main = b.kindHere main := by
  have hc := h.context
  unfold Walk.kindHere
  rw [h.node]
  cases ha : a.context with
  | none => rw [h.context_eq_none ha]
  | some context =>
    cases hb : b.context with
    | none =>
      rw [ha, hb] at hc
      cases hc
    | some context' => rfl

end Walk

variable {doc : Document} {topology : Topology}

/-- Paths to one holder are walked in parallel. -/
theorem Site.parallel_of_holder (hd : doc.pathDefinition path = .ok definition)
    (hd' : doc.pathDefinition path' = .ok definition)
    (h : Site.analyze doc topology path = .ok site)
    (h' : Site.analyze doc topology path' = .ok site') (hh : site.holder = site'.holder) :
    ∃ walk walk', Walk.Parallel walk walk' ∧ site = walk.here definition ∧
    site' = walk'.here definition := by
  have hdef := Document.isDefinition_of_pathDefinition hd
  have hstart := Walk.onCourse_start topology hdef
  obtain ⟨walk, ⟨course, ⟨_, hto⟩, hpar⟩, rfl⟩ :=
    Site.here_of_analyze hd h hstart fun _ _ _ hP hf => hP.advance hdef hf
  obtain ⟨walk', ⟨course', ⟨_, hto'⟩, hpar'⟩, rfl⟩ :=
    Site.here_of_analyze hd' h' hstart fun _ _ _ hP hf => hP.advance hdef hf
  -- both walks are parallel to the one along the path of their node
  have hnode : course.node = course'.node := hpar.node.symm.trans (Eq.trans hh hpar'.node)
  rw [hnode, hto'] at hto
  cases hto
  exact ⟨walk, walk', hpar.trans hpar'.symm, rfl, rfl⟩

/-- What stands at a node is the same on all paths that lead there. -/
theorem Site.kind_of_holder (hd : doc.pathDefinition path = .ok definition)
    (hd' : doc.pathDefinition path' = .ok definition)
    (h : Site.analyze doc topology path = .ok site)
    (h' : Site.analyze doc topology path' = .ok site') (hh : site.holder = site'.holder) :
    site.kind = site'.kind := by
  obtain ⟨walk, walk', hpar, rfl, rfl⟩ := Site.parallel_of_holder hd hd' h h' hh
  exact hpar.kindHere

theorem Site.memberParent_of_holder (hd : doc.pathDefinition path = .ok definition)
    (hd' : doc.pathDefinition path' = .ok definition)
    (h : Site.analyze doc topology path = .ok site)
    (h' : Site.analyze doc topology path' = .ok site') (hh : site.holder = site'.holder) :
    site.memberParent = site'.memberParent := by
  obtain ⟨walk, walk', hpar, rfl, rfl⟩ := Site.parallel_of_holder hd hd' h h' hh
  exact hpar.memberParent

end SchemaRefs
