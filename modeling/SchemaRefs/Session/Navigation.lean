import SchemaRefs.Session.Basic
import SchemaRefs.Session.Inquiry

/-!
# Effective types and navigation environments

The chain of a node leads from each node to what its `type` denotes, or else its `$origin`. The
effective type is the first node of the chain that declares structure of its own, or the last one.
The nodes of a chain are marked while it is walked, so that a chain that comes back to itself is
noticed.

The environment of a node is the one whose elements are searched for the next segment of a
reference: its effective type, or what the effective type has as items or as target.

A type can be a reference, so walking a chain asks for resolutions, and these ask for effective
types.
-/

namespace SchemaRefs

/-- The number of links that are followed along a chain of types. -/
def maxChainLength : Nat := 1000

/-- The number of items and targets that are unwrapped to find an environment. -/
def maxItemsNesting : Nat := 64

namespace Model

variable (m : Model)

section

open Inquiry

/-- The chain of types of a node comes back to itself. -/
def circularAt (node : NodeId) : ModelError :=
  ModelError.circular (m.doc.pathOf node) (m.doc.nearestLocation? node)

/-! ## Environments -/

/-- The target of an association; the static one is preferred on request. -/
def targetOf? (type : NodeId) (preferStatic : Bool) : Option NodeId :=
  if preferStatic then m.doc.targetAspect? type <|> m.doc.target? type
  else m.doc.target? type <|> m.doc.targetAspect? type

/-- The environment of `current`, on the way from `node`; `steps` more may be unwrapped. -/
def envWithin (node : NodeId) (preferStatic : Bool) :
    (steps : Nat) → (current : NodeId) → Inquiry (Option NodeId)
  | 0, _ => fail (m.circularAt node)
  | steps + 1, current => do
    let type ← typeOf current
    match m.doc.itemType? type with
    | some items => envWithin node preferStatic steps items
    | none =>
      if (m.doc.elements? type).isSome then return some type
      match m.targetOf? type preferStatic with
      | none => return none
      | some target =>
        match m.doc.string? target with
        | some name =>
          match m.doc.definition? name with
          | some definition => envWithin node preferStatic steps definition
          | none => fail (.noTarget name (m.doc.nearestLocation? target))
        | none => return if m.doc.hasProp target "elements" then some target else none

/-- The node whose elements are searched for the segment after `node`, if there is one. -/
def envOf (node : NodeId) (preferStatic : Bool := false) : Inquiry (Option NodeId) :=
  m.envWithin node preferStatic maxItemsNesting node

/-! ## Chains of types -/

/-- What a `type` denotes. A name without definition ends the chain. -/
def typeTarget (type : NodeId) : Inquiry (Option NodeId) :=
  match m.doc.string? type with
  | some name => return m.doc.definition? name
  | none =>
    if (m.doc.refPath? type).isSome then return (← resolutionAt (m.doc.pathOf type)).art
    else return none

/-- The member reached from `current` by the names at `steps`; nothing if one of them is missing. -/
def memberPath : (steps : List NodeId) → (current : NodeId) → Inquiry (Option NodeId)
  | [], current => return some current
  | step :: rest, current => do
    match m.doc.string? step with
    | none => return none
    | some name =>
      match ← m.envOf current with
      | none => return none
      | some env =>
        match m.doc.memberIn? env name with
        | none => return none
        | some member => memberPath rest member

/-- What a `$origin` denotes: a definition, or a member of one. -/
def originTarget (marker : NodeId) : Inquiry (Option NodeId) :=
  match m.doc.value? marker with
  | some (.string name) => return m.doc.definition? name
  | some (.array (first :: steps)) =>
    match (m.doc.string? first).bind m.doc.definition? with
    | some definition => m.memberPath steps definition
    | none => return none
  | _ => return none

/-- What an optional part of a node denotes. -/
def partTarget (target : NodeId → Inquiry (Option NodeId)) : Option NodeId → Inquiry (Option NodeId)
  | some part => target part
  | none => return none

/-- The next node of the chain: what the `type` denotes, or else the `$origin`. -/
def chainLink (node : NodeId) : Inquiry (Option NodeId) := do
  match ← partTarget m.typeTarget (m.doc.typeRef? node) with
  | some next => return some next
  | none => partTarget m.originTarget (m.doc.originMarker? node)

end

section

open CacheM

variable (k : Lookups)

/-! ## Walking a chain -/

/-- Marks a node as being on a chain that is walked. -/
def markChain (node : NodeId) : CacheM Unit := do
  setFact .effectiveType (← m.ownerOf node) node .inProgress

/-- The walk of a chain: the nodes marked on the way, and how it ended. -/
structure ChainWalk where
  marked : List NodeId
  outcome : Except ResolveError NodeId

/-- Walks the chain from `current`, of which `start` is the first node. -/
def walkChain (start : NodeId) :
    (steps : Nat) → (current : NodeId) → (marked : List NodeId) → CacheM ChainWalk
  | steps, current, marked => do
    match ← fact? .effectiveType current with
    | some (.done type) => return ⟨marked, .ok type⟩
    | some .inProgress => return ⟨marked, .error (.model (m.circularAt current))⟩
    | none =>
      match steps with
      | 0 => return ⟨marked, .error (.model (m.circularAt start))⟩
      | steps + 1 =>
        if m.doc.hasStructure current then return ⟨marked, .ok current⟩
        match ← attempt (m.markChain current) with
        | .error error => return ⟨marked, .error error⟩
        | .ok () =>
          match ← attempt ((m.chainLink current).run k) with
          | .error error => return ⟨marked ++ [current], .error error⟩
          | .ok none => return ⟨marked ++ [current], .ok current⟩
          | .ok (some next) => walkChain start steps next (marked ++ [current])

/-- Takes back the mark of a node, if it still has one. -/
def unmark (node : NodeId) : CacheM Unit :=
  modify fun cache =>
    if cache.get? .effectiveType node = some .inProgress then cache.clear .effectiveType node
    else cache

/-- Stores the effective type of a node. -/
def storeType (type node : NodeId) : CacheM Unit := do
  setFact .effectiveType (← m.ownerOf node) node (.done type)

/-- The effective type of a node. All nodes marked by the walk get the same one; a failed walk
leaves no mark. -/
def effectiveTypeWith (node : NodeId) : CacheM NodeId := do
  match ← fact? .effectiveType node with
  | some (.done type) => return type
  | some .inProgress => fail (m.circularAt node)
  | none =>
    count fun stats => { stats with effectiveTypeWalks := stats.effectiveTypeWalks + 1 }
    let walk ← m.walkChain k node maxChainLength node []
    match walk.outcome with
    | .ok type =>
      (if walk.marked.isEmpty then [node] else walk.marked).forM (m.storeType type)
      return type
    | .error error =>
      walk.marked.forM unmark
      throw error

end

end Model

end SchemaRefs
