import SchemaRefs.Session.Head

/-!
# Resolving references

A reference is resolved segment by segment: the first one by its context, each further one in the
environment of the one before. Resolutions are kept per holder. A session knows the holders whose
references it is resolving; a reference that needs itself is circular.

Resolutions and effective types ask for each other. `Model.lookups` answers both to a given nesting
depth. A nested question comes from a holder that was not being resolved or from a chain that marks
a node, so `Model.nesting` levels are enough for a document.
-/

namespace SchemaRefs.Model

variable (m : Model)

section

open Inquiry

variable (site : Site) (topology : Topology)

/-! ## References -/

/-- The segments of the reference that a node holds; a bare name is its own segment. -/
def segmentsOf (holder : NodeId) : List NodeId :=
  match m.doc.refPath? holder with
  | some refPath => m.doc.itemsAt refPath
  | none => [holder]

/-- The name of a segment. -/
def segmentName (segment : NodeId) : Except ModelError String :=
  match m.doc.segmentName? segment with
  | some name => .ok name
  | none => .error (.namelessSegment (m.doc.pathOf segment))

/-- The links of a segment named `name` and of the names that follow it. -/
def followLinks : (name : String) → Link → List String → Inquiry (List Link)
  | _, link, [] => return [link]
  | name, link, next :: rest => do
    let env ← match link.env with
      | some env => pure env
      | none =>
        match ← m.envOf link.art with
        | some env => pure env
        | none => fail (.noElements name next)
    match m.doc.memberIn? env next with
    | none => fail (.notFound next (m.placeText env))
    | some art =>
      let links ← followLinks next ⟨art, none⟩ rest
      return { link with env := some env } :: links

/-- The last link needs an environment: by the policy of the context, because its segment is
decorated, or because the reference is expanded or inlined. -/
def needsFinalEnv : Bool :=
  site.context.policy.envOnLast ||
    ((m.doc.refPath? site.holder).isSome &&
      !(m.segmentsOf site.holder).getLast?.any m.doc.isString) ||
    m.doc.hasProp site.holder "expand" || m.doc.hasProp site.holder "inline"

/-- The links with an environment on the last one, where it is needed. A source of a query has to
have one. -/
def closeLinks (lastName : String) (links : List Link) : Inquiry (List Link) := do
  match links.getLast? with
  | none => return links
  | some last =>
    if last.env.isSome || !m.needsFinalEnv site then return links
    else
      let env ← m.envOf last.art
      if env.isNone ∧ site.context = .source then fail (.noSourceElements lastName)
      else return links.dropLast ++ [{ last with env }]

/-- The resolution of a reference. -/
def resolveReference : Inquiry Resolution := do
  let names ← ofExcept ((m.segmentsOf site.holder).mapM m.segmentName)
  match names with
  | [] => fail .emptyReference
  | name :: rest =>
    let parent := site.member <|> some site.main
    match ← m.headOf site topology name names.length with
    | .unlinked scope =>
      return { links := [], art := none, parent, scope, env := none, context := site.context }
    | .bound first scope env =>
      let links ← m.followLinks name first rest
      let links ← m.closeLinks site (names.getLast?.getD name) links
      return { links, art := links.getLast?.map Link.art, parent, scope, env,
               context := site.context }

/-- The resolution of whatever stands at a site. A member or definition denotes itself. -/
def resolveSite : Inquiry Resolution :=
  match site.kind with
  | .definition => do
    let env ← m.envOf site.main
    return { links := [⟨site.main, env⟩], art := some site.main, parent := none, scope := .global,
             env := none, context := site.context }
  | .member => do
    let env ← m.envOf site.holder
    return { links := [⟨site.holder, env⟩], art := some site.holder, parent := site.memberParent,
             scope := .parent, env := none, context := site.context }
  | .reference => m.resolveReference site topology

end

/-! ## Inspecting a path -/

open CacheM

/-- A failure at a site, with its location and context as far as they are not known. -/
def annotate (site : Site) (error : ResolveError) : ResolveError :=
  error.mapModel fun error =>
    (error.withLocation (m.doc.nearestLocation? site.holder)).withContext site.context

/-- Resolves what stands at a site, and keeps the resolution for its holder. -/
def resolveAndKeep (k : Lookups) (definition : NodeId) (site : Site) (topology : Topology) :
    CacheM Resolution :=
  getOrCompute .resolution definition site.holder do
    count fun stats => { stats with resolutions := stats.resolutions + 1 }
    (m.resolveSite site topology).run k

/-- The resolution of what stands at a path. The questions that arise are answered by `k`. -/
def inspectWith (k : Lookups) (path : Path) : CacheM Resolution := do
  let definition ← ofExcept (m.doc.pathDefinition path)
  let topology ← m.prepare definition
  let site ← ofExcept (Site.analyze m.doc topology path)
  match ← fact? .resolution site.holder with
  | some resolution => return resolution
  | none =>
    if site.holder ∈ (← get).resolving then throw (m.annotate site (.model (.selfDependent path)))
    else
      tryCatch (holding site.holder (m.resolveAndKeep k definition site topology))
        fun error => throw (m.annotate site error)

/-- The answers to questions that are nested at most `depth` deep. -/
def lookups : (depth : Nat) → Lookups
  | 0 =>
    { inspect := fun _ => assert .endlessNesting
      effectiveType := fun _ => assert .endlessNesting }
  | depth + 1 =>
    { inspect := m.inspectWith (lookups depth)
      effectiveType := m.effectiveTypeWith (lookups depth) }

/-- The depth to which questions about a document can be nested: every nested question comes from a
holder that was not being resolved, or from a chain that marks a node. -/
def nesting : Nat :=
  2 * m.doc.size + 2

/-- The questions about a document. -/
def ask : Lookups :=
  m.lookups m.nesting

/-- The resolution of what stands at a path. -/
def inspect (path : Path) : CacheM Resolution :=
  m.ask.inspect path

/-- The effective type of a node. -/
def effectiveType (node : NodeId) : CacheM NodeId :=
  m.ask.effectiveType node

/-- The node whose elements are searched for the segment after a node. -/
def navigationEnv (node : NodeId) (preferStatic : Bool) : CacheM (Option NodeId) :=
  (m.envOf node preferStatic).run m.ask

/-! ## References to definitions -/

/-- A reference that is known to denote a definition. -/
inductive ArtifactRef where
  | name (name : String)
  /-- A string or a reference object of the document. -/
  | node (node : NodeId)
deriving Repr, DecidableEq, Inhabited

/-- What a reference of several segments denotes. A model error counts as nothing found when there
is a fallback. -/
def longArtifact (node : NodeId) (fallback : Option NodeId) : CacheM (Option NodeId) := do
  match ← attempt (m.inspect (m.doc.pathOf node)) with
  | .ok resolution => return resolution.art
  | .error error =>
    if !error.isInternal && fallback.isSome then return none else throw error

/-- The name of the definition that a reference asks for, and what it denotes. -/
def artifactTarget (fallback : Option NodeId) : ArtifactRef → CacheM (String × Option NodeId)
  | .name name => return (name, m.doc.definition? name)
  | .node node =>
    match m.doc.string? node with
    | some name => return (name, m.doc.definition? name)
    | none =>
      match m.doc.refPath? node with
      | none => fail (.notReference (m.doc.pathOf node))
      | some refPath => do
        let segments := m.doc.itemsAt refPath
        let name := (segments.head?.bind m.doc.segmentName?).getD ""
        let found ← if 1 < segments.length then m.longArtifact node fallback
          else pure (m.doc.definition? name)
        return (name, found)

/-- The definition that a reference denotes, or else the fallback. -/
def artifactRef (reference : ArtifactRef) (fallback : Option NodeId) : CacheM NodeId := do
  let (name, found) ← m.artifactTarget fallback reference
  match found <|> fallback with
  | some art => return art
  | none => fail (.noDefinition name)

end SchemaRefs.Model
