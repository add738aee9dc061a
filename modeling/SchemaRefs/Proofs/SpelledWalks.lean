import SchemaRefs.Proofs.Bisimulation
import SchemaRefs.Proofs.PathSpellings
import SchemaRefs.Proofs.SiteKinds

/-!
# Walks along paths that are spelled differently

A path can name a property of digits by a position. A walk takes such a position for what it stands
for, with two exceptions: below a `ref` it is a segment (`Walk.takesForSegment`), and outside of the
contexts it is not noted as a property without meaning (`Walk.overlooks`). All other walks
(`Walk.Plain`) echo the one along the path of their node: both know the same, up to the spelling of
paths (`Walk.Plain.echo`).

Main statement: the sites at the ends of such walks differ only in how the path of the outer
reference is spelled, or there is no site at either end (`Walk.Plain.analyze`).
-/

namespace SchemaRefs

/-- The outcomes are related results, or related failures. -/
inductive Resembles {ε α β : Type} (E : ε → ε → Prop) (P : α → β → Prop) :
    Except ε α → Except ε β → Prop where
  | error {e e' : ε} : E e e' → Resembles E P (.error e) (.error e')
  | ok {a : α} {b : β} : P a b → Resembles E P (.ok a) (.ok b)

/-- The kinds are the same; if `loose` holds, an unsupported reference may also stand for an invalid
one. -/
def ModelErrorKind.Akin (loose : Prop) (kind kind' : ModelErrorKind) : Prop :=
  kind = kind' ∨ loose ∧ kind ∈ [.unsupportedContext, .invalidReference] ∧
    kind' ∈ [.unsupportedContext, .invalidReference]

/-- The same outer reference, known by related paths. -/
inductive BaseRef.Respelled (R : Path → Path → Prop) : BaseRef → BaseRef → Prop where
  | segment {path path' : Path} (position : Nat) : R path path' →
      Respelled R (.segment path position) (.segment path' position)
  | column {path path' : Path} : R path path' → Respelled R (.column path) (.column path')

/-- The sites are equal, but for the spelling of their outer reference. -/
inductive Site.Respelled (R : Path → Path → Prop) (site : Site) : Site → Prop where
  | mk {base : Option BaseRef} : Option.Rel (BaseRef.Respelled R) site.base base →
      Respelled R site { site with base }

theorem BaseRef.Respelled.mono {R R' : Path → Path → Prop} {base base' : BaseRef}
    (h : base.Respelled R base') (hR : ∀ path path', R path path' → R' path path') :
    base.Respelled R' base' := by
  cases h with
  | segment position hpath => exact .segment position (hR _ _ hpath)
  | column hpath => exact .column (hR _ _ hpath)

theorem Site.Respelled.mono {R R' : Path → Path → Prop} {site site' : Site}
    (h : site.Respelled R site') (hR : ∀ path path', R path path' → R' path path') :
    site.Respelled R' site' := by
  obtain ⟨hbase⟩ := h
  exact .mk (hbase.mono fun _ _ hb => hb.mono hR)

namespace Walk

variable {doc : Document} {topology : Topology} {main next : NodeId} {loose : Prop} {walk : Walk}

/-! ## Positions in objects -/

section

variable (doc topology)

/-- The step names a property of digits by its position, and the property is no query. -/
def namesByPosition (walk : Walk) (step : Step) (next : NodeId) : Bool :=
  step.index?.isSome && doc.isObject walk.node && (topology.queryOf? next).isNone

/-- A property of digits is taken for a segment of a reference. -/
def takesForSegment (walk : Walk) (step : Step) (next : NodeId) : Bool :=
  walk.namesByPosition doc topology step next && walk.inSegments

/-- A property of digits that has no meaning is not noted. -/
def overlooks (walk : Walk) (step : Step) (next : NodeId) : Bool :=
  walk.namesByPosition doc topology step next && walk.context.isNone && walk.memberMap.isNone

/-- A walk that takes no property for a segment, and overlooks none unless `loose` holds. -/
inductive Plain (main : NodeId) (loose : Prop) : Walk → Prop where
  | start : Plain main loose (start doc main)
  | step {walk : Walk} {step : Step} {next : NodeId} : Plain main loose walk →
      doc.follow? walk.node step = some next → walk.takesForSegment doc topology step next = false →
      (walk.overlooks doc topology step next = true → loose) →
      Plain main loose (walk.advance doc topology main step next)

/-- The path is the one of a plain walk, and the other one that of its node. -/
def Spells (main : NodeId) (loose : Prop) (path path' : Path) : Prop :=
  ∃ walk, Plain doc topology main loose walk ∧ walk.trail = path ∧ doc.pathOf walk.node = path'

end

/-! ## Walks that echo each other -/

/-- The same holder, known by related paths. -/
def HolderRespelled (R : Path → Path → Prop) (outer outer' : NodeId × Path) : Prop :=
  outer.1 = outer'.1 ∧ R outer.2 outer'.2

/-- The second walk is the first one up to the spelling of paths. The holder of a reference counts
only among its segments, and of properties without meaning only whether there was one. -/
inductive Echoes (R : Path → Path → Prop) (loose : Prop) (walk : Walk) : Walk → Prop where
  | mk {trail : Path} {base : Option BaseRef} {refHolder : Option (NodeId × Path)}
      {unknownKey : Option String} : Option.Rel (BaseRef.Respelled R) walk.base base →
      (walk.inSegments = true ∨ walk.segment.isSome = true →
        Option.Rel (HolderRespelled R) walk.refHolder refHolder) →
      (walk.unknownKey.isSome = unknownKey.isSome ∨ loose) →
      Echoes R loose walk { walk with trail, base, refHolder, unknownKey }

section

variable {R : Path → Path → Prop} {a b : Walk}

theorem Echoes.leave (h : Echoes R loose a b) : Echoes R loose a.leave b.leave := by
  obtain ⟨hbase, _, hunknown⟩ := h
  exact .mk hbase (fun hin => by rcases hin with hin | hin <;> cases hin) hunknown

theorem Echoes.goTo (h : Echoes R loose a b) (before before' : Walk) (step step' : Step) :
    Echoes R loose (before.goTo step next a) (before'.goTo step' next b) := by
  obtain ⟨hbase, hholder, hunknown⟩ := h
  exact .mk hbase hholder hunknown

theorem Echoes.stepQuery (h : Echoes R loose a b) (index : Nat) :
    Echoes R loose (a.stepQuery doc index next) (b.stepQuery doc index next) := by
  obtain ⟨_, _, hunknown⟩ := h
  exact .mk .none (fun _ => .none) hunknown

theorem Echoes.enter (h : Echoes R loose a b) (context : Context) :
    Echoes R loose (a.enter context) (b.enter context) := by
  obtain ⟨hbase, hholder, hunknown⟩ := h
  exact .mk hbase hholder hunknown

theorem Echoes.memberMap (h : Echoes R loose a b) : b.memberMap = a.memberMap := by
  cases h
  rfl

theorem Echoes.queryContext? (h : Echoes R loose a b) (key : String) :
    b.queryContext? key = a.queryContext? key := by
  cases h
  rfl

theorem Echoes.enterQueryProperty (h : Echoes R loose a b) (key : String) :
    Echoes R loose (a.enterQueryProperty key) (b.enterQueryProperty key) := by
  unfold Walk.enterQueryProperty
  rw [h.queryContext? key]
  obtain ⟨hbase, hholder, hunknown⟩ := h
  cases a.queryContext? key with
  | some context => exact .mk hbase hholder hunknown
  | none =>
    dsimp only
    split
    · exact .mk hbase hholder hunknown
    · exact .mk hbase hholder (.inl rfl)

theorem Echoes.enterProperty (h : Echoes R loose a b) (key : String) :
    Echoes R loose (a.enterProperty doc topology main next key)
      (b.enterProperty doc topology main next key) := by
  have henter := fun context => h.enter context
  have hquery := h.enterQueryProperty key
  obtain ⟨hbase, hholder, hunknown⟩ := h
  unfold Walk.enterProperty
  cases (MemberMap.ofKey? key).filter fun _ => doc.isObject next with
  | some map => exact .mk hbase hholder hunknown
  | none =>
    dsimp only
    split
    · exact henter _
    · exact henter _
    · split
      · exact henter _
      · exact .mk hbase hholder hunknown
    · split
      · exact henter _
      · exact .mk hbase hholder hunknown
    · exact .mk hbase hholder hunknown
    · exact .mk hbase hholder hunknown
    · exact henter _
    · exact .mk hbase hholder hunknown
    · exact henter _
    · exact henter _
    · split
      · exact henter _
      · split
        · exact hquery
        · exact .mk hbase hholder (.inl rfl)

/-- Outside of the contexts, a step is echoed by the step in the spelling of the node it leads
to. -/
theorem Echoes.stepStructure (h : Echoes R loose a b) {id : NodeId} {step : Step}
    (hover : a.memberMap = none → step.index?.isSome = true → doc.isObject id = true → loose) :
    Echoes R loose (a.stepStructure doc topology main step next)
      (b.stepStructure doc topology main (doc.ownStep id step) next) := by
  unfold Walk.stepStructure
  rw [h.memberMap]
  cases hm : a.memberMap with
  | some map =>
    obtain ⟨hbase, hholder, hunknown⟩ := h
    exact .mk hbase hholder hunknown
  | none =>
    cases step with
    | key key => exact h.enterProperty key
    | index position =>
      by_cases hobject : doc.isObject id = true
      · rw [Document.ownStep_of_object hobject]
        dsimp only
        rw [Step.text, enterProperty_of_digits (Step.all_isDigit_positionText position)]
        obtain ⟨hbase, hholder, _⟩ := h
        exact .mk hbase hholder (.inr (hover hm rfl hobject))
      · rw [Document.ownStep_of_not_object (Bool.eq_false_iff.mpr hobject)]
        exact h

/-- Inside a context, a property of digits means nothing, except that it ends a segment. -/
theorem stepExpression_of_digits {context : Context} {key : String}
    (hkey : key.toList.all Char.isDigit = true) (atSegment : Option Nat) (atSegments : Bool) :
    walk.stepExpression doc context (.key key) atSegment atSegments =
      { walk with refHolder := if atSegment.isSome then none else walk.refHolder } := by
  have hon : ¬ (key == "on" && walk.inSources) = true := fun h =>
    absurd_of_digits hkey (eq_of_beq (Bool.and_eq_true_iff.mp h).1) (by decide)
  have hwhere : ¬ (key == "where") = true :=
    fun h => absurd_of_digits hkey (eq_of_beq h) (by decide)
  unfold stepExpression
  cases atSegment with
  | some position =>
    dsimp only
    rw [if_neg hwhere]
    rfl
  | none =>
    dsimp only
    split
    case h_8 => rw [if_neg hon, nameStartsWith_at_of_digits hkey]; rfl
    all_goals exact absurd_of_digits hkey rfl (by decide)

theorem Echoes.dropHolder (h : Echoes R loose a b) :
    Echoes R loose { a with refHolder := none } { b with refHolder := none } := by
  obtain ⟨hbase, _, hunknown⟩ := h
  exact .mk hbase (fun _ => .none) hunknown

theorem Echoes.enterSegments (h : Echoes R loose a b) (htrail : R a.trail b.trail) :
    Echoes R loose { a with refHolder := some (a.node, a.trail), inSegments := true }
      { b with refHolder := some (b.node, b.trail), inSegments := true } := by
  obtain ⟨hbase, _, hunknown⟩ := h
  exact .mk hbase (fun _ => .some ⟨rfl, htrail⟩) hunknown

theorem Echoes.enterSegment (h : Echoes R loose a b)
    (hheld : Option.Rel (HolderRespelled R) a.refHolder b.refHolder) (position : Nat) :
    Echoes R loose { a with segment := some position } { b with segment := some position } := by
  obtain ⟨hbase, _, hunknown⟩ := h
  exact .mk hbase (fun _ => hheld) hunknown

theorem Echoes.enterItems (h : Echoes R loose a b) (htrail : R a.trail b.trail) :
    Echoes R loose { a with base := some (.column a.trail) }
      { b with base := some (.column b.trail) } := by
  obtain ⟨_, hholder, hunknown⟩ := h
  exact .mk (.some (.column htrail)) hholder hunknown

/-- The outer reference of a filter on a segment. -/
def filterBase (walk : Walk) (position : Nat) : Option BaseRef :=
  match walk.refHolder with
  | some (_, path) => some (.segment path position)
  | none => walk.base

theorem Echoes.enterFilter (h : Echoes R loose a b)
    (hheld : Option.Rel (HolderRespelled R) a.refHolder b.refHolder) (position : Nat) :
    Echoes R loose { a with base := a.filterBase position, refHolder := none }
      { b with base := b.filterBase position, refHolder := none } := by
  have hbase : Option.Rel (BaseRef.Respelled R) (a.filterBase position)
      (b.filterBase position) := by
    unfold filterBase
    rcases hheld.some_or_none with ⟨outer, outer', hr, hr', _, hpath⟩ | ⟨hr, hr'⟩
    · rw [hr, hr']
      exact .some (.segment position hpath)
    · rw [hr, hr']
      obtain ⟨hbase, _, _⟩ := h
      exact hbase
  obtain ⟨_, _, hunknown⟩ := h
  exact .mk hbase (fun _ => .none) hunknown

/-- Inside a context, the same step is echoed. -/
theorem Echoes.stepExpression (h : Echoes R loose a b) (htrail : R a.trail b.trail)
    (context : Context) (step : Step) {atSegment : Option Nat} {atSegments : Bool}
    (hheld : atSegments = true ∨ atSegment.isSome = true →
      Option.Rel (HolderRespelled R) a.refHolder b.refHolder) :
    Echoes R loose (a.stepExpression doc context step atSegment atSegments)
      (b.stepExpression doc context step atSegment atSegments) := by
  have hrefs : (doc.refPath? b.node).isSome = (doc.refPath? a.node).isSome := by cases h; rfl
  have hjoin : ∀ key : String, (key == "on" && b.inSources) = (key == "on" && a.inSources) := by
    cases h
    exact fun _ => rfl
  unfold Walk.stepExpression
  cases step with
  | index position =>
    dsimp only
    split
    · next hin => exact h.enterSegment (hheld (.inl hin)) position
    · exact h
  | key key =>
    dsimp only
    cases atSegment with
    | some position =>
      dsimp only
      split
      · exact (h.enterFilter (hheld (.inr rfl)) position).enter _
      · exact h.dropHolder
    | none =>
      dsimp only
      split
      · exact h.enterSegments htrail
      · rw [hrefs]
        split
        · exact (h.enterItems htrail).enter _
        · exact h
      · rw [hrefs]
        split
        · exact (h.enterItems htrail).enter _
        · exact h
      · exact h.enter _
      · split
        · exact h.enter _
        · exact h
      · split
        · exact h.enter _
        · exact h
      · split
        · exact h.enter _
        · exact h
      · rw [hjoin]
        split
        · exact h.enter _
        · split
          · exact h.enter _
          · exact h

/-- Inside a context, a position in an object is echoed by the property of its digits, unless it is
a segment. -/
theorem Echoes.stepDigits (h : Echoes R loose a b) (hleft : a.segment = none ∧ a.inSegments = false)
    (context : Context) (position : Nat) (atSegment : Option Nat) :
    Echoes R loose (a.stepExpression doc context (.index position) atSegment false)
      (b.stepExpression doc context (.key (Step.positionText position)) atSegment false) := by
  rw [stepExpression_of_digits (Step.all_isDigit_positionText position)]
  obtain ⟨hbase, _, hunknown⟩ := h
  -- whatever holder the first walk remembers, it is not among segments
  refine .mk hbase (fun hin => ?_) hunknown
  change a.inSegments = true ∨ a.segment.isSome = true at hin
  rw [hleft.1, hleft.2] at hin
  simp at hin

theorem Echoes.advance (h : Echoes R loose a b) (htrail : R a.trail b.trail) {step : Step}
    (hseg : a.takesForSegment doc topology step next = false)
    (hover : a.overlooks doc topology step next = true → loose) :
    Echoes R loose (a.advance doc topology main step next)
      (b.advance doc topology main (doc.ownStep a.node step) next) := by
  have hcontext : b.context = a.context := by cases h; rfl
  have hsegment : b.segment = a.segment := by cases h; rfl
  have hsegments : b.inSegments = a.inSegments := by cases h; rfl
  have hheld : a.inSegments = true ∨ a.segment.isSome = true →
      Option.Rel (HolderRespelled R) a.leave.refHolder b.leave.refHolder := by
    obtain ⟨_, hholder, _⟩ := h
    exact hholder
  rw [advance_eq, advance_eq, hcontext, hsegment, hsegments]
  refine Echoes.goTo ?_ a b step _
  cases hq : topology.queryOf? next with
  | some index => exact h.leave.stepQuery index
  | none =>
    dsimp only
    cases hc : a.context with
    | none =>
      refine h.leave.stepStructure fun hmap hindex hobject => hover ?_
      change a.memberMap = none at hmap
      simp [overlooks, namesByPosition, hindex, hobject, hq, hc, hmap]
    | some context =>
      dsimp only
      by_cases hdigits : step.index?.isSome = true ∧ doc.isObject a.node = true
      · -- a position in an object: it was not taken for a segment
        have hin : a.inSegments = false := by
          simpa [takesForSegment, namesByPosition, hdigits.1, hdigits.2, hq] using hseg
        rw [Document.ownStep_of_object hdigits.2, hin]
        cases step with
        | key key => cases hdigits.1
        | index position => exact h.leave.stepDigits ⟨rfl, rfl⟩ context position _
      · have hown : doc.ownStep a.node step = step := by
          cases step with
          | key key => rfl
          | index position =>
            exact Document.ownStep_of_not_object
              (Bool.eq_false_iff.mpr fun ho => hdigits ⟨rfl, ho⟩) _
        rw [hown]
        exact h.leave.stepExpression htrail context step hheld

end

/-! ## Plain walks -/

/-- A plain walk echoes the one along the path of its node. -/
theorem Plain.echo (hd : doc.isDefinition main = true) (h : Plain doc topology main loose walk) :
    ∃ course, IsWalkTo doc topology main course ∧ course.node = walk.node ∧
    course.trail = doc.pathOf walk.node ∧
      Echoes (Spells doc topology main loose) loose walk course := by
  induction h with
  | start =>
    exact ⟨_, ⟨.refl, walkTo?_definition hd⟩, rfl, trail_start hd,
      .mk .none (fun _ => .none) (.inl rfl)⟩
  | @step walk step next hplain hf hseg hover ih =>
    obtain ⟨course, ⟨hw, hto⟩, hnode, htrail, hecho⟩ := ih
    have hc := (Document.container?_of_follow? hf).1
    have hs := Document.step?_of_follow? hf
    have hspells : Spells doc topology main loose walk.trail course.trail :=
      ⟨walk, hplain, rfl, htrail.symm⟩
    rw [hnode] at hw hto
    refine ⟨course.advance doc topology main (doc.ownStep walk.node step) next,
      ⟨.step hc hw, walkTo?_step hd hw hc hs hto hnode⟩, rfl, ?_, hecho.advance hspells hseg hover⟩
    change course.trail.push _ = doc.pathOf next
    rw [htrail, Document.pathOf_step hc hs]

/-! ## The ends of walks -/

theorem Echoes.site {R : Path → Path → Prop} {a b : Walk} (h : Echoes R loose a b) (kind : SiteKind)
    (holder : NodeId) (context : Context) :
    (a.site main kind holder context).Respelled R (b.site main kind holder context) := by
  obtain ⟨hbase, _, _⟩ := h
  exact .mk hbase

theorem finish_definition (hc : walk.context = none) (hn : walk.node = main) (path : Path) :
    walk.finish doc main path = .ok (walk.site main .definition walk.node .member) := by
  simp [Walk.finish, hc, hn]

theorem finish_member (hc : walk.context = none) (hn : walk.node ≠ main)
    (hm : walk.member = some walk.node) (path : Path) :
    walk.finish doc main path = .ok (walk.site main .member walk.node .member) := by
  simp [Walk.finish, hc, hn, hm]

/-- A walk that ends outside of all contexts, neither at the definition nor at a member, has found
no reference. It is unsupported if one stands there below a property without meaning. -/
theorem finish_outside (hc : walk.context = none) (hn : walk.node ≠ main)
    (hm : walk.member ≠ some walk.node) (path : Path) :
    ∃ e, walk.finish doc main path = .error e ∧
      e.kind = if walk.unknownKey.isSome && doc.isRefLike walk.node then .unsupportedContext
        else .invalidReference := by
  unfold Walk.finish
  rw [hc]
  dsimp only
  rw [if_neg (by simpa using hn), if_neg (by simpa using hm)]
  cases walk.unknownKey with
  | none => exact ⟨_, rfl, rfl⟩
  | some key =>
    dsimp only
    split
    · next hlike => exact ⟨_, rfl, by rw [hlike]; rfl⟩
    · next hlike => exact ⟨_, rfl, by rw [Bool.eq_false_iff.mpr hlike]; rfl⟩

section

variable {R : Path → Path → Prop} {a b : Walk}

theorem Echoes.finish_outside (h : Echoes R loose a b) (hc : a.context = none) (path path' : Path) :
    Resembles (fun e e' => e.kind.Akin loose e'.kind) (Site.Respelled R) (a.finish doc main path)
      (b.finish doc main path') := by
  obtain ⟨hnode, hcontext, hmember⟩ : b.node = a.node ∧ b.context = a.context ∧
      b.member = a.member := by
    cases h
    exact ⟨rfl, rfl, rfl⟩
  have hunknown : a.unknownKey.isSome = b.unknownKey.isSome ∨ loose := by
    obtain ⟨_, _, hunknown⟩ := h
    exact hunknown
  have hc' : b.context = none := hcontext.trans hc
  by_cases hn : a.node = main
  · rw [finish_definition hc hn, finish_definition hc' (hnode.trans hn), hnode]
    exact .ok (h.site _ _ _)
  have hn' : b.node ≠ main := by rwa [hnode]
  by_cases hm : a.member = some a.node
  · rw [finish_member hc hn hm, finish_member hc' hn' (by rw [hmember, hnode, hm]), hnode]
    exact .ok (h.site _ _ _)
  obtain ⟨e, he, hkind⟩ := Walk.finish_outside hc hn hm path
  obtain ⟨e', he', hkind'⟩ := Walk.finish_outside hc' hn' (by rwa [hmember, hnode]) path'
  rw [he, he']
  refine .error ?_
  rw [hkind, hkind', hnode]
  rcases hunknown with hsame | hloose
  · exact .inl (by rw [hsame])
  · -- only a walk that has overlooked a property can find the reference invalid where the other has
    -- no rules
    refine .inr ⟨hloose, ?_, ?_⟩ <;> split <;> simp

theorem Echoes.finish_inside (h : Echoes R loose a b) {context : Context}
    (hc : a.context = some context) (path path' : Path) :
    Resembles (fun e e' => e.kind.Akin loose e'.kind) (Site.Respelled R) (a.finish doc main path)
      (b.finish doc main path') := by
  obtain ⟨hnode, hcontext, hsegment, hsegments, hdepth⟩ : b.node = a.node ∧ b.context = a.context ∧
      b.segment = a.segment ∧ b.inSegments = a.inSegments ∧ b.contextDepth = a.contextDepth := by
    cases h
    exact ⟨rfl, rfl, rfl, rfl, rfl⟩
  have houter : Option.Rel (HolderRespelled R)
      (if a.segment.isSome || a.inSegments then a.refHolder else none)
      (if a.segment.isSome || a.inSegments then b.refHolder else none) := by
    split
    · next hin =>
      obtain ⟨_, hholder, _⟩ := h
      exact hholder (by simpa [or_comm] using hin)
    · exact .none
  unfold Walk.finish
  rw [hcontext, hc, hnode, hsegment, hsegments, hdepth]
  dsimp only
  rcases houter.some_or_none with ⟨outer, outer', ha, hb, hholder, _⟩ | ⟨ha, hb⟩
  · rw [ha, hb]
    dsimp only
    rw [hholder]
    exact .ok (h.site _ _ _)
  · rw [ha, hb]
    dsimp only
    split
    · exact .ok (h.site _ _ _)
    · split
      · exact .ok (h.site _ _ _)
      · exact .error (.inl rfl)

/-- Walks that echo each other end at the same site, up to its outer reference, or at none. -/
theorem Echoes.finish (h : Echoes R loose a b) (path path' : Path) :
    Resembles (fun e e' => e.kind.Akin loose e'.kind) (Site.Respelled R) (a.finish doc main path)
      (b.finish doc main path') := by
  cases hc : a.context with
  | none => exact h.finish_outside hc path path'
  | some context => exact h.finish_inside hc path path'

end

theorem Plain.along (hd : doc.isDefinition main = true) (h : Plain doc topology main loose walk) :
    Along doc topology main walk.trail walk := by
  induction h with
  | start => exact along_start hd
  | step _ hf _ _ ih => exact ih.push hf

theorem Plain.owner? (hd : doc.isDefinition main = true) (h : Plain doc topology main loose walk) :
    doc.owner? walk.node = some main := by
  obtain ⟨course, ⟨hw, _⟩, hnode, _⟩ := h.echo hd
  exact Document.owner?_eq_some_iff.mpr ⟨hd, hnode ▸ hw⟩

/-- What stands at the end of a plain walk is what stands at the end of the path of its node. -/
theorem Plain.analyze (hd : doc.isDefinition main = true) (h : Plain doc topology main loose walk) :
    Resembles (fun e e' => e.kind.Akin loose e'.kind)
      (Site.Respelled (Spells doc topology main loose))
      (Site.analyze doc topology walk.trail)
        (Site.analyze doc topology (doc.pathOf walk.node)) := by
  obtain ⟨course, ⟨_, hto⟩, hnode, _, hecho⟩ := h.echo hd
  rw [(h.along hd).analyze, Site.analyze_pathOf (h.owner? hd) (hnode ▸ hto)]
  exact hecho.finish _ _

/-! ## Paths -/

variable (doc topology main) in
/-- A step of the walk is of a kind. -/
def anyStep (kind : Walk → Step → NodeId → Bool) : List Step → Walk → Bool
  | [], _ => false
  | step :: rest, walk =>
    match doc.follow? walk.node step with
    | none => false
    | some next =>
      kind walk step next || anyStep kind rest (walk.advance doc topology main step next)

/-- Steps that lead on a plain walk to a node. -/
theorem Plain.advanceAll {steps : List Step} {node : NodeId}
    (h : Plain doc topology main loose walk) (hnode : doc.followAll? walk.node steps = some node)
    (hseg : anyStep doc topology main (takesForSegment doc topology) steps walk = false)
    (hover : anyStep doc topology main (overlooks doc topology) steps walk = true → loose) :
    ∃ walk', Plain doc topology main loose walk' ∧ walk'.node = node ∧
      walk'.trail.steps = walk.trail.steps ++ steps := by
  induction steps generalizing walk with
  | nil =>
    cases hnode
    exact ⟨walk, h, rfl, (List.append_nil _).symm⟩
  | cons step rest ih =>
    obtain ⟨next, hf, hrest⟩ := Option.bind_eq_some_iff.mp hnode
    unfold anyStep at hseg hover
    rw [hf] at hseg hover
    dsimp only at hseg hover
    rw [Bool.or_eq_false_iff] at hseg
    have hstep := Plain.step h hf hseg.1 fun ho => hover (by rw [ho, Bool.true_or])
    obtain ⟨walk', hplain, hto, htrail⟩ := ih hstep hrest hseg.2 fun ho =>
      hover (by rw [ho, Bool.or_true])
    refine ⟨walk', hplain, hto, htrail.trans ?_⟩
    change (walk.trail.steps ++ [step]) ++ rest = _
    rw [List.append_assoc]
    rfl

end Walk

end SchemaRefs
