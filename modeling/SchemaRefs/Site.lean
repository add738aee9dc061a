import SchemaRefs.Error
import SchemaRefs.Topology.Basic

/-!
# Reference sites

The site of a reference is what resolution has to know about its position: the context, the
innermost query around it, the member that uses it, and for filters and for items of expanded or
inlined columns the outer reference whose environment they are looked up in. A site is found by
walking the path from its definition, one step at a time.
-/

namespace SchemaRefs

/-- What stands at the end of a path. -/
inductive SiteKind where
  /-- A reference object, or a name at a position where a name is a reference. -/
  | reference
  /-- The declaration of a member. -/
  | member
  /-- A top-level definition. -/
  | definition
deriving Repr, DecidableEq, Inhabited

/-- The outer reference that provides the environment of a nested one. -/
inductive BaseRef where
  /-- A filter on a segment of the reference at a path. -/
  | segment (path : Path) (position : Nat)
  /-- An item of the expanded or inlined column at a path. -/
  | column (path : Path)
deriving Repr, DecidableEq, Inhabited

/-- The position of a reference, as resolution sees it. -/
structure Site where
  kind : SiteKind
  /-- The node that holds the reference, or the member or definition itself. -/
  holder : NodeId
  context : Context
  /-- The top-level definition. -/
  main : NodeId
  /-- The index of the innermost query around the reference. -/
  query : Option Nat
  /-- The member whose property holds the reference. -/
  member : Option NodeId
  /-- The parent of that member. -/
  memberParent : Option NodeId
  base : Option BaseRef
deriving Repr, DecidableEq, Inhabited

/-- The state of a walk along a path. -/
structure Walk where
  /-- The node reached so far. -/
  node : NodeId
  /-- The path walked so far. -/
  trail : Path
  context : Option Context := none
  /-- The number of steps since the context was set. -/
  contextDepth : Nat := 0
  query : Option Nat := none
  member : Option NodeId := none
  memberParent : Option NodeId := none
  /-- The innermost node that can own members. -/
  host : NodeId
  /-- The walk has just entered a map of members. -/
  memberMap : Option MemberMap := none
  inMixin : Bool := false
  inSources : Bool := false
  /-- The walk has entered the body of a `SET`. -/
  inSet : Bool := false
  base : Option BaseRef := none
  /-- The holder of the reference whose segments are being walked, and its path. -/
  refHolder : Option (NodeId × Path) := none
  /-- The walk has just entered a list of segments. -/
  inSegments : Bool := false
  /-- The walk has just reached a segment. -/
  segment : Option Nat := none
  /-- The last property without meaning for references. -/
  unknownKey : Option String := none
deriving Repr, DecidableEq, Inhabited

namespace Walk

/-- The walk that stands at its definition. -/
def start (doc : Document) (main : NodeId) : Walk where
  node := main
  trail := Path.definition ((doc.definitionName? main).getD "")
  host := main

/-- The walk with a context that starts here. -/
def enter (walk : Walk) (context : Context) : Walk :=
  { walk with context := some context, contextDepth := 0 }

variable (doc : Document) (topology : Topology)

/-- The context of the condition of the current member, and the query it belongs to. A condition of
an element that a query publishes sees the result of that query. -/
def conditionContext (main : NodeId) (walk : Walk) : Context × Option Nat :=
  if walk.inMixin then (.mixinOn, walk.query)
  else match walk.memberParent with
    | none => (.onCondition, walk.query)
    | some parent =>
      match walk.query with
      | some index =>
        let published := (topology.scope? index).any fun scope =>
          scope.select == parent || scope.elementsOwner == some parent
        (if published then .queryOn else .onCondition, walk.query)
      | none =>
        if parent == main && !topology.queries.isEmpty then (.queryOn, some 0)
        else (.onCondition, none)

/-- The context that a property of a query body starts. -/
def queryContext? (walk : Walk) : String → Option Context
  | "from" => some .source
  | "columns" => some .columns
  | "where" => some .filter
  | "having" => some .having
  | "groupBy" => some .groupBy
  | "orderBy" => some (if walk.inSet then .orderBySet else .orderBy)
  | "excluding" => some .excluding
  | _ => none

/-- A step by a property of a query that starts no context outside queries. -/
def enterQueryProperty (walk : Walk) (key : String) : Walk :=
  match walk.queryContext? key with
  | some context => { walk with inSources := walk.inSources || key == "from" }.enter context
  | none => if key == "args" then walk else { walk with unknownKey := some key }

/-- A step onto `next` by a property outside every context. -/
def enterProperty (main next : NodeId) (walk : Walk) (key : String) : Walk :=
  match (MemberMap.ofKey? key).filter fun _ => doc.isObject next with
  | some map => { walk with memberMap := some map }
  | none =>
    match key with
    | "type" => walk.enter .type
    | "includes" => walk.enter .includes
    | "target" => if doc.isRefLike next then walk.enter .target else { walk with host := next }
    | "targetAspect" =>
      if doc.isRefLike next then walk.enter .targetAspect else { walk with host := next }
    | "returns" => { walk with host := next }
    | "items" => walk
    | "keys" => walk.enter .keys
    | "on" =>
      let (context, query) := walk.conditionContext topology main
      { walk with query }.enter context
    | "value" | "default" => walk.enter .calculated
    | key =>
      if nameStartsWith key "@" then walk.enter .annotated
      else if walk.query.isSome then walk.enterQueryProperty key
      else { walk with unknownKey := some key }

/-- A step onto `next` outside every context. -/
def stepStructure (main : NodeId) (step : Step) (next : NodeId) (walk : Walk) : Walk :=
  match walk.memberMap with
  | some map =>
    { walk with
      memberMap := none
      memberParent := some walk.host
      member := some next
      host := next
      inMixin := map == .mixin }
  | none =>
    match step with
    | .index _ => walk
    | .key key => walk.enterProperty doc topology main next key

/-- A step inside a context. The flags say whether the walk stood at a segment, or at a list of
segments. -/
def stepExpression (context : Context) (step : Step) (atSegment : Option Nat) (atSegments : Bool)
    (walk : Walk) : Walk :=
  match step with
  | .index position => if atSegments then { walk with segment := some position } else walk
  | .key key =>
    match atSegment with
    | some position =>
      if key == "where" then
        let base := match walk.refHolder with
          | some (_, path) => some (.segment path position)
          | none => walk.base
        { walk with base, refHolder := none }.enter .refWhere
      -- arguments keep the context of the reference they decorate
      else { walk with refHolder := none }
    | none =>
      match key with
      | "ref" => { walk with refHolder := some (walk.node, walk.trail), inSegments := true }
      | "expand" | "inline" =>
        if (doc.refPath? walk.node).isSome then
          { walk with base := some (.column walk.trail) }.enter
            (if key == "expand" then .expand else .inline)
        else walk
      | "type" => walk.enter .type
      | "xpr" | "args" | "list" =>
        if context.nested ≠ context then walk.enter context.nested else walk
      | key =>
        if key == "on" && walk.inSources then walk.enter .joinOn
        else if nameStartsWith key "@" then walk.enter .annotated
        else walk

/-- A step onto a node that stands for a query. -/
def stepQuery (index : Nat) (next : NodeId) (walk : Walk) : Walk :=
  { walk with
    query := some index
    context := none
    base := none
    refHolder := none
    memberMap := none
    inSources := false
    inMixin := false
    inSet := doc.prop? walk.node "SET" == some next
    host := next }

/-- One step onto `next`. -/
def advance (main : NodeId) (step : Step) (next : NodeId) (walk : Walk) : Walk :=
  let moved := { walk with
    segment := none, inSegments := false, contextDepth := walk.contextDepth + 1 }
  let arrived := match topology.queryOf? next with
    | some index => moved.stepQuery doc index next
    | none =>
      match walk.context with
      | none => moved.stepStructure doc topology main step next
      | some context => moved.stepExpression doc context step walk.segment walk.inSegments
  { arrived with node := next, trail := walk.trail.push step }

/-- All steps of a path, from the walk's node on. -/
def advanceAll (main : NodeId) (path : Path) : List Step → Walk → Except ModelError Walk
  | [], walk => .ok walk
  | step :: rest, walk =>
    match doc.follow? walk.node step with
    | none => .error (.deadEnd path step)
    | some next => advanceAll main path rest (walk.advance doc topology main step next)

/-- A bare name in the context is a reference. -/
def namesReference : Context → Bool
  | .type | .includes | .target | .targetAspect | .excluding => true
  | _ => false

/-- The site of a given kind and holder at the end of a walk. -/
def site (main : NodeId) (walk : Walk) (kind : SiteKind) (holder : NodeId) (context : Context) :
    Site :=
  { kind, holder, context, main, query := walk.query, member := walk.member,
    memberParent := walk.memberParent, base := walk.base }

/-- The site at the end of a walk. A path into the segments of a reference denotes the whole of
it. -/
def finish (main : NodeId) (path : Path) (walk : Walk) : Except ModelError Site :=
  match walk.context with
  | none =>
    if walk.node == main then .ok (walk.site main .definition walk.node .member)
    else if walk.member == some walk.node then .ok (walk.site main .member walk.node .member)
    else match walk.unknownKey with
      | some key =>
        if doc.isRefLike walk.node then .error (.unsupported key path) else .error
          (.noReference path)
      | none => .error (.noReference path)
  | some context =>
    let outer := if walk.segment.isSome || walk.inSegments then walk.refHolder else none
    match outer with
    | some (holder, _) => .ok (walk.site main .reference holder context)
    | none =>
      if (doc.refPath? walk.node).isSome then .ok (walk.site main .reference walk.node context)
      else if namesReference context && decide (walk.contextDepth ≤ 1) &&
          (doc.string? walk.node).any (· != "*") then
        .ok (walk.site main .reference walk.node context)
      else .error (.noReference path)

end Walk

/-- The definition that a path leads into. -/
def Document.pathDefinition (doc : Document) (path : Path) : Except ModelError NodeId :=
  match path.definitionName? with
  | none => .error (.noDefinitionPath path)
  | some name =>
    match doc.definition? name with
    | none => .error (.noDefinition name)
    | some definition => .ok definition

/-- The site of a path below a definition with the given topology. -/
def Site.analyze (doc : Document) (topology : Topology) (path : Path) : Except ModelError Site := do
  let main ← doc.pathDefinition path
  let walk ← Walk.advanceAll doc topology main path path.inner (Walk.start doc main)
  walk.finish doc main path

end SchemaRefs
