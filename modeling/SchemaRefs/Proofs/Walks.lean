import SchemaRefs.Proofs.Topologies
import SchemaRefs.Site

/-!
# Walks to references

What one step of a walk can do is said once: outside every context by `PropertyStep`, inside one by
`ExpressionStep`, and for all steps by `Stepped`. Everything that holds along all walks follows by
cases from there (`Walk.advanceAll_keeps`):

* a walk stays within its definition (`Walk.Local`);
* its query is the one of the innermost query node around it (`Walk.Placed`).
-/

namespace SchemaRefs

variable {definition : NodeId} {path : Path} {walk : Walk}

/-- Names are looked up in the enclosing queries. -/
def Context.isLexical (context : Context) : Bool :=
  match context.policy.lexical with
  | .full | .fullMixinsFirst | .enclosing => true
  | .nothing | .dollarOnly => false

namespace Walk

variable {doc : Document} {topology : Topology} {main next : NodeId} {walk : Walk}
  {context : Context} {after : Walk}

/-! ## One step -/

variable (doc topology main next walk) in
/-- What a step by a property outside every context can do. -/
inductive PropertyStep : Walk → Prop where
  | members (map : MemberMap) : PropertyStep { walk with memberMap := some map }
  | fixed {context : Context} : context.isLexical = false → PropertyStep (walk.enter context)
  | host : PropertyStep { walk with host := next }
  | stay : PropertyStep walk
  | condition :
      PropertyStep ({ walk with query := (walk.conditionContext topology main).2 }.enter
        (walk.conditionContext topology main).1)
  | clause {key : String} {context : Context} : walk.query.isSome = true →
      walk.queryContext? key = some context →
      PropertyStep ({ walk with inSources := walk.inSources || key == "from" }.enter context)
  | unknown (key : String) : PropertyStep { walk with unknownKey := some key }

theorem propertyStep_enterProperty (key : String) :
    PropertyStep topology main next walk (walk.enterProperty doc topology main next key) := by
  unfold enterProperty
  split
  · exact .members _
  · split
    · exact .fixed rfl
    · exact .fixed rfl
    · split
      · exact .fixed rfl
      · exact .host
    · split
      · exact .fixed rfl
      · exact .host
    · exact .host
    · exact .stay
    · exact .fixed rfl
    · exact .condition
    · exact .fixed rfl
    · exact .fixed rfl
    · split
      · exact .fixed rfl
      · split
        · next hq =>
          unfold enterQueryProperty
          split
          · next context hc => exact .clause hq hc
          · split
            · exact .stay
            · exact .unknown _
        · exact .unknown _

variable (doc walk) in
/-- What a step inside a context can do. -/
inductive ExpressionStep (context : Context) (atSegment : Option Nat) (atSegments : Bool) :
    Walk → Prop where
  | stay : ExpressionStep context atSegment atSegments walk
  | segment (position : Nat) : atSegments = true →
      ExpressionStep context atSegment atSegments { walk with segment := some position }
  | filter {position : Nat} {holder : NodeId} {path : Path} : atSegment = some position →
      walk.refHolder = some (holder, path) →
      ExpressionStep context atSegment atSegments
        ({ walk with base := some (.segment path position), refHolder := none }.enter .refWhere)
  | looseFilter : walk.refHolder = none →
      ExpressionStep context atSegment atSegments ({ walk with refHolder := none }.enter .refWhere)
  | decoration : ExpressionStep context atSegment atSegments { walk with refHolder := none }
  | segments : ExpressionStep context atSegment atSegments
      { walk with refHolder := some (walk.node, walk.trail), inSegments := true }
  | items {nested : Context} : nested.isLexical = false → (doc.refPath? walk.node).isSome = true →
      ExpressionStep context atSegment atSegments
        ({ walk with base := some (.column walk.trail) }.enter nested)
  | fixed {nested : Context} : nested.isLexical = false →
      ExpressionStep context atSegment atSegments (walk.enter nested)
  | nested : ExpressionStep context atSegment atSegments (walk.enter context.nested)
  | join : walk.inSources = true → ExpressionStep context atSegment atSegments (walk.enter .joinOn)

theorem expressionStep_stepExpression (context : Context) (step : Step) (atSegment : Option Nat)
    (atSegments : Bool) :
    ExpressionStep doc walk context atSegment atSegments
      (walk.stepExpression doc context step atSegment atSegments) := by
  unfold stepExpression
  split
  · split
    · next hs => exact .segment _ hs
    · exact .stay
  · next key =>
    split
    · next position =>
      split
      · dsimp only
        cases hr : walk.refHolder with
        | none => exact .looseFilter hr
        | some outer => exact .filter rfl hr
      · exact .decoration
    · split
      · exact .segments
      · split
        · next hr =>
          refine .items ?_ hr
          split <;> rfl
        · exact .stay
      · split
        · next hr =>
          refine .items ?_ hr
          split <;> rfl
        · exact .stay
      · exact .fixed rfl
      · split
        · exact .nested
        · exact .stay
      · split
        · exact .nested
        · exact .stay
      · split
        · exact .nested
        · exact .stay
      · split
        · next hj =>
          simp only [Bool.and_eq_true] at hj
          exact .join hj.2
        · split
          · exact .fixed rfl
          · exact .stay

/-- The walk when it leaves its node. -/
def leave (walk : Walk) : Walk :=
  { walk with segment := none, inSegments := false, contextDepth := walk.contextDepth + 1 }

variable (doc topology main next walk) in
/-- What a step onto `next` can do, apart from going there. -/
inductive Stepped : Walk → Prop where
  | query {index : Nat} : topology.queryOf? next = some index →
      Stepped (walk.leave.stepQuery doc index next)
  | member (map : MemberMap) : topology.queryOf? next = none → walk.context = none →
      walk.memberMap = some map →
      Stepped { walk.leave with
        memberMap := none
        memberParent := some walk.host
        member := some next
        host := next
        inMixin := map == .mixin }
  | position : topology.queryOf? next = none → walk.context = none → walk.memberMap = none →
      Stepped walk.leave
  | property {after : Walk} : topology.queryOf? next = none → walk.context = none →
      walk.memberMap = none → PropertyStep topology main next walk.leave after → Stepped after
  | expression {context : Context} {after : Walk} : topology.queryOf? next = none →
      walk.context = some context →
      ExpressionStep doc walk.leave context walk.segment walk.inSegments after → Stepped after

/-- The walk has gone to a node. -/
def goTo (walk : Walk) (step : Step) (next : NodeId) (after : Walk) : Walk :=
  { after with node := next, trail := walk.trail.push step }

theorem advance_eq (step : Step) :
    walk.advance doc topology main step next = walk.goTo step next
      (match topology.queryOf? next with
      | some index => walk.leave.stepQuery doc index next
      | none =>
        match walk.context with
        | none => walk.leave.stepStructure doc topology main step next
        | some context =>
          walk.leave.stepExpression doc context step walk.segment walk.inSegments) := rfl

theorem stepped_stepStructure (hq : topology.queryOf? next = none) (hc : walk.context = none)
    (step : Step) :
    Stepped doc topology main next walk (walk.leave.stepStructure doc topology main step next) := by
  unfold stepStructure
  split
  · next map hm => exact .member map hq hc hm
  · next hm =>
    split
    · exact .position hq hc hm
    · exact .property hq hc hm (propertyStep_enterProperty _)

theorem stepped_advance (doc : Document) (topology : Topology) (main next : NodeId) (walk : Walk)
    (step : Step) :
    ∃ after, Stepped doc topology main next walk after ∧
      walk.advance doc topology main step next = walk.goTo step next after := by
  refine ⟨_, ?_, advance_eq step⟩
  split
  · next hq => exact .query hq
  · next hq =>
    split
    · next hc => exact stepped_stepStructure hq hc step
    · next hc => exact .expression hq hc (expressionStep_stepExpression ..)

/-- What every step keeps, a walk keeps. -/
theorem advanceAll_keeps {P : Walk → Prop}
    (hstep : ∀ walk step next, P walk → doc.follow? walk.node step = some next →
      P (walk.advance doc topology main step next))
    {path : Path} {steps : List Step} {walk walk' : Walk}
    (h : advanceAll doc topology main path steps walk = .ok walk') (hP : P walk) : P walk' := by
  induction steps generalizing walk with
  | nil =>
    cases h
    exact hP
  | cons step rest ih =>
    unfold advanceAll at h
    split at h
    · cases h
    · next next hn => exact ih h (hstep walk step next hP hn)

/-! ## Walks stay within their definition -/

variable (doc main) in
/-- All nodes that a walk knows lie within its definition. -/
structure Local (walk : Walk) : Prop where
  node : doc.Within main walk.node
  host : doc.Within main walk.host
  member : ∀ id, walk.member = some id → doc.Within main id
  memberParent : ∀ id, walk.memberParent = some id → doc.Within main id
  refHolder : ∀ id path, walk.refHolder = some (id, path) → doc.Within main id

theorem local_start : Local doc main (start doc main) :=
  ⟨.refl, .refl, by simp [start], by simp [start], by simp [start]⟩

theorem Local.stepped (h : Local doc main walk) (hn : doc.Within main next)
    (hs : Stepped doc topology main next walk after) : Local doc main after := by
  have hl : Local doc main walk.leave := ⟨h.node, h.host, h.member, h.memberParent, h.refHolder⟩
  cases hs with
  | query _ => exact ⟨hl.node, hn, hl.member, hl.memberParent, by simp [stepQuery]⟩
  | member map _ _ _ =>
    refine ⟨hl.node, hn, fun id hid => ?_, fun id hid => ?_, hl.refHolder⟩
    · cases hid
      exact hn
    · cases hid
      exact h.host
  | position _ _ _ => exact hl
  | property _ _ _ hp =>
    cases hp with
    | host => exact ⟨hl.node, hn, hl.member, hl.memberParent, hl.refHolder⟩
    | members | fixed | stay | condition | clause | unknown =>
      exact ⟨hl.node, hl.host, hl.member, hl.memberParent, hl.refHolder⟩
  | expression _ _ he =>
    cases he with
    | segments =>
      refine ⟨hl.node, hl.host, hl.member, hl.memberParent, fun id path hid => ?_⟩
      cases hid
      exact h.node
    | filter | looseFilter | decoration =>
      exact ⟨hl.node, hl.host, hl.member, hl.memberParent, fun id path hid => by cases hid⟩
    | stay | segment | items | fixed | nested | join =>
      exact ⟨hl.node, hl.host, hl.member, hl.memberParent, hl.refHolder⟩

theorem Local.advance (h : Local doc main walk) {step : Step}
    (hf : doc.follow? walk.node step = some next) :
    Local doc main (walk.advance doc topology main step next) := by
  have hn : doc.Within main next :=
    h.node.trans (Document.within_of_container? (Document.container?_of_follow? hf).1)
  obtain ⟨after, hs, heq⟩ := stepped_advance doc topology main next walk step
  rw [heq]
  have ha := h.stepped hn hs
  exact ⟨hn, ha.host, ha.member, ha.memberParent, ha.refHolder⟩

/-! ## The query around a walk -/

variable (doc topology) in
/-- `query` is the innermost query node around a node, or the node itself. -/
structure NearestQuery (node query : NodeId) (index : Nat) : Prop where
  mem : (query, index) ∈ topology.queryTable
  within : doc.Within query node
  innermost : ∀ q i, (q, i) ∈ topology.queryTable → doc.Within q node → doc.Within q query

variable (doc topology) in
/-- No query node lies around a node. -/
def NoQuery (node : NodeId) : Prop :=
  ∀ q i, (q, i) ∈ topology.queryTable → ¬ doc.Within q node

theorem NearestQuery.self {i : Nat} (h : (next, i) ∈ topology.queryTable) :
    NearestQuery doc topology next next i :=
  ⟨h, .refl, fun _ _ _ hw => hw⟩

theorem NearestQuery.child {node query : NodeId} {i : Nat}
    (h : NearestQuery doc topology node query i) (hc : doc.container? next = some node)
    (hn : ∀ i, (next, i) ∉ topology.queryTable) :
    NearestQuery doc topology next query i := by
  refine ⟨h.mem, .step hc h.within, fun q j hq hw => h.innermost q j hq ?_⟩
  refine hw.container (fun heq => ?_) hc
  subst heq
  exact hn j hq

theorem NoQuery.child {node : NodeId} (h : NoQuery doc topology node)
    (hc : doc.container? next = some node) (hn : ∀ i, (next, i) ∉ topology.queryTable) :
    NoQuery doc topology next := by
  intro q i hq hw
  refine h q i hq (hw.container (fun heq => ?_) hc)
  subst heq
  exact hn i hq

variable (doc topology walk) in
/-- How the query of a walk comes about. -/
inductive QueryPlace : Prop where
  /-- The walk is inside a query, and in the sort order of a `SET` only below the body of one. -/
  | inside {query : NodeId} {index : Nat} : walk.query = some index →
      NearestQuery doc topology walk.node query index →
      (walk.inSet = true → doc.step? query = some (.key "SET")) →
      (∀ context, walk.context = some context → context.policy.lexical = .enclosing →
        doc.step? query = some (.key "SET")) → QueryPlace
  | outside : walk.query = none → NoQuery doc topology walk.node → walk.inSources = false →
      QueryPlace
  /-- The condition of an element that the main query publishes. -/
  | published {scope : QueryScope} {context : Context} : walk.query = some 0 →
      topology.scope? 0 = some scope → NoQuery doc topology walk.node → walk.inSources = false →
      walk.context = some context → context.isLexical = false → QueryPlace

variable (doc topology) in
/-- The query of the walk, and of the reference whose segments are being walked. -/
structure Placed (walk : Walk) : Prop where
  place : QueryPlace doc topology walk
  holder : ∀ id path, walk.refHolder = some (id, path) → doc.Within id walk.node ∧
    ∀ q i, (q, i) ∈ topology.queryTable → doc.Within q walk.node → doc.Within q id

theorem isLexical_nested (h : context.isLexical = false) :
    context.nested.isLexical = false := by
  cases context <;> exact h

theorem enclosing_nested (h : context.nested.policy.lexical = .enclosing) :
    context.policy.lexical = .enclosing := by
  cases context <;> exact h

theorem not_enclosing_of_isLexical (h : context.isLexical = false) :
    context.policy.lexical ≠ .enclosing := by
  cases context <;> first | decide | exact absurd h (by decide)

theorem inSet_of_queryContext? {key : String}
    (h : walk.queryContext? key = some context) (he : context.policy.lexical = .enclosing) :
    walk.inSet = true := by
  unfold queryContext? at h
  split at h <;> cases h <;> try exact absurd he (by decide)
  cases hs : walk.inSet with
  | true => rfl
  | false =>
    rw [hs] at he
    exact absurd he (by decide)

/-- The condition of a member: its context is no sort order of a `SET`, and it changes the query
only from none to the main one. -/
theorem conditionContext_cases (topology : Topology) (main : NodeId) (walk : Walk) :
    (walk.conditionContext topology main).1.policy.lexical ≠ .enclosing ∧
      ((walk.conditionContext topology main).2 = walk.query ∨
        (walk.query = none ∧ (walk.conditionContext topology main).2 = some 0 ∧
          (∃ scope, topology.scope? 0 = some scope) ∧
          (walk.conditionContext topology main).1.isLexical = false)) := by
  have hmixin : (Context.policy .mixinOn).lexical ≠ .enclosing := by decide
  have hon : (Context.policy .onCondition).lexical ≠ .enclosing := by decide
  unfold conditionContext
  split
  · exact ⟨hmixin, .inl rfl⟩
  · split
    · exact ⟨hon, .inl rfl⟩
    · split
      · next hq =>
        refine ⟨?_, .inl rfl⟩
        dsimp only
        split <;> decide
      · next hq =>
        split
        · next hm =>
          refine ⟨by decide, .inr ⟨hq, rfl, ?_, rfl⟩⟩
          simp only [Bool.and_eq_true, Bool.not_eq_true'] at hm
          cases hqs : topology.queries with
          | nil => rw [hqs] at hm; exact absurd hm.2 (by decide)
          | cons scope rest => exact ⟨scope, by simp [Topology.scope?, hqs]⟩
        · exact ⟨by decide, .inl hq.symm⟩

/-- A walk that goes to a node that is no query node takes its place along. -/
theorem QueryPlace.carry (h : QueryPlace doc topology walk)
    (hc : doc.container? after.node = some walk.node)
    (hn : ∀ i, (after.node, i) ∉ topology.queryTable) (hq : after.query = walk.query)
    (hset : after.inSet = walk.inSet) (hsrc : walk.query = none → after.inSources = walk.inSources)
    (hctx : ∀ context, after.context = some context → context.policy.lexical = .enclosing →
      walk.inSet = true ∨ ∃ outer, walk.context = some outer ∧ outer.policy.lexical = .enclosing)
    (hpub : ∀ outer, walk.context = some outer → outer.isLexical = false → walk.inSources = false →
      after.inSources = false ∧ ∃ context, after.context = some context ∧
      context.isLexical = false) :
    QueryPlace doc topology after := by
  cases h with
  | inside hi hnear hin hen =>
    refine .inside (hq.trans hi) (hnear.child hc hn) (fun h => hin (hset ▸ h))
      fun context h he => ?_
    rcases hctx context h he with h | ⟨outer, ho, hoe⟩
    · exact hin h
    · exact hen outer ho hoe
  | outside hnone hno hsources =>
    exact .outside (hq.trans hnone) (hno.child hc hn) ((hsrc hnone).trans hsources)
  | published hz hs hno hsources hcx hlex =>
    obtain ⟨hsrc', context, hcx', hlex'⟩ := hpub _ hcx hlex hsources
    exact .published (hq.trans hz) hs (hno.child hc hn) hsrc' hcx' hlex'

theorem QueryPlace.structural (h : QueryPlace doc topology walk)
    (hc : doc.container? after.node = some walk.node)
    (hn : ∀ i, (after.node, i) ∉ topology.queryTable) (hctx : walk.context = none)
    (hq : after.query = walk.query) (hset : after.inSet = walk.inSet)
    (hsrc : after.inSources = walk.inSources) (hafter : after.context = walk.context) :
    QueryPlace doc topology after := by
  refine h.carry hc hn hq hset (fun _ => hsrc) (fun context hcx => ?_) (fun outer ho => ?_)
  · rw [hafter, hctx] at hcx
    cases hcx
  · rw [hctx] at ho
    cases ho

/-- A step by a property outside every context. -/
theorem QueryPlace.property (h : QueryPlace doc topology walk)
    (hc : doc.container? next = some walk.node) (hn : ∀ i, (next, i) ∉ topology.queryTable)
    (hctx : walk.context = none) (hp : PropertyStep topology main next walk.leave after)
    (step : Step) :
    QueryPlace doc topology (walk.goTo step next after) := by
  have hnone : ∀ context, walk.context ≠ some context := by
    intro context hcx
    rw [hctx] at hcx
    cases hcx
  cases hp with
  | members | host | stay | unknown =>
    exact h.structural hc hn hctx rfl rfl rfl rfl
  | fixed hlex =>
    refine h.carry hc hn rfl rfl (fun _ => rfl) (fun context hcx he => ?_)
      (fun outer ho => absurd ho (hnone outer))
    cases hcx
    exact absurd he (not_enclosing_of_isLexical hlex)
  | condition =>
    obtain ⟨hne, hsame | ⟨hnq, hzero, ⟨scope, hscope⟩, hlex⟩⟩ :=
      conditionContext_cases topology main walk.leave
    · refine h.carry hc hn hsame rfl (fun _ => rfl) (fun context hcx he => ?_)
        (fun outer ho => absurd ho (hnone outer))
      cases hcx
      exact absurd he hne
    · cases h with
      | inside hi => rw [show walk.query = none from hnq] at hi; cases hi
      | outside _ hno hsources => exact .published hzero hscope (hno.child hc hn) hsources rfl hlex
      | published hz => rw [show walk.query = none from hnq] at hz; cases hz
  | clause hsome hclause =>
    refine h.carry hc hn rfl rfl (fun hnone => ?_) (fun context hcx he => ?_)
      (fun outer ho => absurd ho (hnone outer))
    · have hsome : walk.query.isSome = true := hsome
      rw [hnone] at hsome
      cases hsome
    · cases hcx
      exact .inl (inSet_of_queryContext? hclause he)

/-- A step inside a context. -/
theorem QueryPlace.expression (h : QueryPlace doc topology walk)
    (hc : doc.container? next = some walk.node) (hn : ∀ i, (next, i) ∉ topology.queryTable)
    (hctx : walk.context = some context)
    (he : ExpressionStep doc walk.leave context walk.segment walk.inSegments after) (step : Step) :
    QueryPlace doc topology (walk.goTo step next after) := by
  have hfixed : ∀ {context : Context}, context.isLexical = false →
      ∀ inner, some context = some inner → inner.policy.lexical = .enclosing →
      walk.inSet = true ∨ ∃ outer, walk.context = some outer ∧
      outer.policy.lexical = .enclosing := by
    intro context hlex inner hin hen
    cases hin
    exact absurd hen (not_enclosing_of_isLexical hlex)
  cases he with
  | stay | segment | decoration | segments =>
    exact h.carry hc hn rfl rfl (fun _ => rfl) (fun context hcx he => .inr ⟨_, hcx, he⟩)
      (fun outer ho hlex hsrc => ⟨hsrc, outer, ho, hlex⟩)
  | filter | looseFilter =>
    exact h.carry hc hn rfl rfl (fun _ => rfl) (hfixed rfl)
      (fun outer ho hlex hsrc => ⟨hsrc, _, rfl, rfl⟩)
  | items hlex | fixed hlex =>
    exact h.carry hc hn rfl rfl (fun _ => rfl) (hfixed hlex)
      (fun outer ho _ hsrc => ⟨hsrc, _, rfl, hlex⟩)
  | nested =>
    refine h.carry hc hn rfl rfl (fun _ => rfl) (fun context hcx hen => ?_)
      (fun outer ho hlex hsrc => ⟨hsrc, _, rfl, ?_⟩)
    · cases hcx
      exact .inr ⟨_, hctx, enclosing_nested hen⟩
    · rw [hctx] at ho
      cases ho
      exact isLexical_nested hlex
  | join hsources =>
    refine h.carry hc hn rfl rfl (fun _ => rfl) (fun context hcx hen => ?_)
      (fun outer ho _ hsrc => ?_)
    · cases hcx
      exact absurd hen (by decide)
    · have hsources : walk.inSources = true := hsources
      rw [hsrc] at hsources
      cases hsources

theorem PropertyStep.refHolder_eq (hp : PropertyStep topology main next walk after) :
    after.refHolder = walk.refHolder := by
  cases hp <;> rfl

/-- A step inside a context keeps the reference whose segments are walked, drops it, or takes up the
one that it leaves. -/
theorem ExpressionStep.refHolder_cases {atSegment : Option Nat} {atSegments : Bool}
    (he : ExpressionStep doc walk context atSegment atSegments after) :
    after.refHolder = walk.refHolder ∨ after.refHolder = none ∨
      after.refHolder = some (walk.node, walk.trail) := by
  cases he with
  | stay | segment | items | fixed | nested | join => exact .inl rfl
  | filter | looseFilter | decoration => exact .inr (.inl rfl)
  | segments => exact .inr (.inr rfl)

theorem Placed.advance {definition : NodeId} {links : List TopologyLink}
    (hb : doc.Built definition topology links) (h : Placed doc topology walk) {step : Step}
    (hf : doc.follow? walk.node step = some next) :
    Placed doc topology (walk.advance doc topology main step next) := by
  have hc := (Document.container?_of_follow? hf).1
  obtain ⟨after, hs, heq⟩ := stepped_advance doc topology main next walk step
  rw [heq]
  have hnot : topology.queryOf? next = none → ∀ i, (next, i) ∉ topology.queryTable := by
    intro hnone i hi
    rw [hb.queryOf?_eq_some_iff.mpr hi] at hnone
    cases hnone
  -- a query node around `next` is not `next` itself, so it lies around the node that is left
  have houter : topology.queryOf? next = none → ∀ q i, (q, i) ∈ topology.queryTable →
      doc.Within q next → doc.Within q walk.node := by
    intro hnone q i hq hw
    refine hw.container (fun heq => ?_) hc
    subst heq
    exact hnot hnone i hq
  -- the reference whose segments are walked stays where it is, unless the step takes up another one
  have hholder : topology.queryOf? next = none → ∀ id path, walk.refHolder = some (id, path) →
      doc.Within id next ∧ ∀ q i, (q, i) ∈ topology.queryTable → doc.Within q next →
      doc.Within q id := by
    intro hnone id path hr
    obtain ⟨hin, hall⟩ := h.holder id path hr
    exact ⟨.step hc hin, fun q i hq hw => hall q i hq (houter hnone q i hq hw)⟩
  cases hs with
  | query hq =>
    have hmem := hb.queryOf?_eq_some_iff.mp hq
    refine ⟨.inside rfl (.self hmem) (fun hset => ?_) (fun context hctx => by cases hctx), ?_⟩
    · have hset : (doc.prop? walk.node "SET" == some next) = true := hset
      exact (Document.container?_of_prop? (eq_of_beq hset)).2
    · intro id path hr
      cases hr
  | member map hq hctx _ => exact ⟨h.place.structural hc (hnot hq) hctx rfl rfl rfl rfl, hholder hq⟩
  | position hq hctx _ => exact ⟨h.place.structural hc (hnot hq) hctx rfl rfl rfl rfl, hholder hq⟩
  | property hq hctx _ hp =>
    exact ⟨h.place.property hc (hnot hq) hctx hp step,
      fun id path hr => hholder hq id path (hp.refHolder_eq ▸ hr)⟩
  | expression hq hctx he =>
    refine ⟨h.place.expression hc (hnot hq) hctx he step, fun id path hr => ?_⟩
    have hr : after.refHolder = some (id, path) := hr
    rcases he.refHolder_cases with hsame | hdropped | htaken
    · exact hholder hq id path (hsame.symm.trans hr)
    · rw [hdropped] at hr
      cases hr
    · rw [htaken] at hr
      cases hr
      exact ⟨Document.within_of_container? hc, houter hq⟩

theorem placed_start {definition : NodeId} {links : List TopologyLink}
    (hb : doc.Built definition topology links) : Placed doc topology (start doc definition) := by
  refine ⟨.outside rfl (fun q i hq hw => ?_) rfl, fun id path hr => by cases hr⟩
  have := hb.within_of_mem hq
  exact Nat.lt_irrefl _ (Nat.lt_of_lt_of_le this.2 hw.le)

end Walk

/-! ## Sites -/

variable {doc : Document} {topology : Topology}

variable (doc topology) in
/-- How the query of a site comes about. -/
inductive Site.QueryPlace (site : Site) : Prop where
  | inside {query : NodeId} {index : Nat} : site.query = some index →
      Walk.NearestQuery doc topology site.holder query index →
      (site.context.policy.lexical = .enclosing → doc.step? query = some (.key "SET")) →
      QueryPlace site
  | outside : site.query = none → Walk.NoQuery doc topology site.holder → QueryPlace site
  | published {scope : QueryScope} : site.query = some 0 → topology.scope? 0 = some scope →
      site.context.isLexical = false → QueryPlace site

variable (doc topology) in
/-- All nodes of a site lie within its definition, and its query is the innermost one around it. -/
structure Site.Located (definition : NodeId) (site : Site) : Prop where
  main : site.main = definition
  holder : doc.Within definition site.holder
  member : ∀ id, site.member = some id → doc.Within definition id
  memberParent : ∀ id, site.memberParent = some id → doc.Within definition id
  query : site.QueryPlace doc topology
  context : site.kind ≠ .reference → site.context = .member

theorem Walk.located_of_node {kind : SiteKind} {context : Context}
    (hl : Walk.Local doc definition walk) (hp : Walk.Placed doc topology walk)
    (hc : walk.context = some context ∨ context.isLexical = false ∧ walk.context = none)
    (hk : kind ≠ .reference → context = .member) :
    (walk.site definition kind walk.node context).Located doc topology definition := by
  refine ⟨rfl, hl.node, hl.member, hl.memberParent, ?_, hk⟩
  cases hp.place with
  | inside hi hn hin hen =>
    refine .inside hi hn fun he => ?_
    rcases hc with hc | ⟨hlex, _⟩
    · exact hen context hc he
    · exact absurd he (not_enclosing_of_isLexical hlex)
  | outside hnone hno => exact .outside hnone hno
  | published hz hs _ _ hcx hlex =>
    refine .published hz hs ?_
    rcases hc with hc | ⟨hlex', _⟩
    · rw [hcx] at hc
      cases hc
      exact hlex
    · exact hlex'

theorem Walk.located_of_refHolder {holder : NodeId}
    {context : Context} (hl : Walk.Local doc definition walk) (hp : Walk.Placed doc topology walk)
    (hr : walk.refHolder = some (holder, path)) (hc : walk.context = some context) :
    (walk.site definition .reference holder context).Located doc topology definition := by
  obtain ⟨hw, hall⟩ := hp.holder holder path hr
  refine ⟨rfl, hl.refHolder holder path hr, hl.member, hl.memberParent, ?_, fun h => absurd rfl h⟩
  cases hp.place with
  | inside hi hn hin hen =>
    refine .inside hi ⟨hn.mem, hall _ _ hn.mem hn.within, fun q i hq hqh => ?_⟩ (hen context hc)
    exact hn.innermost q i hq (hqh.trans hw)
  | outside hnone hno => exact .outside hnone fun q i hq hqh => hno q i hq (hqh.trans hw)
  | published hz hs _ _ hcx hlex =>
    rw [hcx] at hc
    cases hc
    exact .published hz hs hlex

theorem Walk.located_finish {site : Site}
    (hl : Walk.Local doc definition walk) (hp : Walk.Placed doc topology walk)
    (h : walk.finish doc definition path = .ok site) : site.Located doc topology definition := by
  unfold Walk.finish at h
  split at h
  · next hc =>
    split at h
    · cases h
      exact Walk.located_of_node hl hp (.inr ⟨rfl, hc⟩) fun _ => rfl
    · split at h
      · cases h
        exact Walk.located_of_node hl hp (.inr ⟨rfl, hc⟩) fun _ => rfl
      · split at h
        · split at h <;> cases h
        · cases h
  · next context hc =>
    dsimp only at h
    split at h
    · next holder path' houter =>
      cases h
      have hr : walk.refHolder = some (holder, path') := by
        split at houter
        · exact houter
        · cases houter
      exact Walk.located_of_refHolder hl hp hr hc
    · split at h
      · cases h
        exact Walk.located_of_node hl hp (.inl hc) fun h => absurd rfl h
      · split at h
        · cases h
          exact Walk.located_of_node hl hp (.inl hc) fun h => absurd rfl h
        · cases h

/-- Every site of a definition is located in it. -/
theorem Site.located_of_analyze {links : List TopologyLink}
    {site : Site} (hd : doc.pathDefinition path = .ok definition)
    (hb : doc.Built definition topology links) (h : Site.analyze doc topology path = .ok site) :
    site.Located doc topology definition := by
  unfold Site.analyze at h
  rw [hd] at h
  cases hw : Walk.advanceAll doc topology definition path path.inner
    (Walk.start doc definition) with
  | error e =>
    simp only [bind, Except.bind] at h
    rw [hw] at h
    cases h
  | ok walk =>
    simp only [bind, Except.bind] at h
    rw [hw] at h
    refine Walk.located_finish ?_ ?_ h
    · exact Walk.advanceAll_keeps (fun _ _ _ hP hf => hP.advance hf) hw Walk.local_start
    · exact Walk.advanceAll_keeps (fun _ _ _ hP hf => hP.advance hb hf) hw (Walk.placed_start hb)

end SchemaRefs
