import SchemaRefs.Topology.Basic

/-!
# The sources of a query and the queries inside expressions

The sources of a query form a tree of joins. `Document.sourceItems` lists its leaves in order, each
with the conditions that have to be searched for queries and the places where the tree is malformed.
`Document.queriesBelow` lists the outermost queries inside an expression.
-/

namespace SchemaRefs

/-- What can be wrong with the sources of a query. -/
inductive SourceFault where
  | emptyReference
  | emptyJoin
  | unsupported
deriving Repr, DecidableEq, Inhabited

/-- A leaf of the tree of sources. -/
inductive SourceItem where
  /-- A path, with the alias under which it is known. -/
  | path (item : NodeId) (name : String)
  /-- A sub-query. -/
  | query (item : NodeId)
  /-- The condition of a join. -/
  | condition (expr : NodeId)
  | fault (item : NodeId) (fault : SourceFault)
deriving Repr, DecidableEq, Inhabited

namespace Document

variable (doc : Document)

/-- The items of an array property; nothing when there is none. -/
def propItems (id : NodeId) (key : String) : List NodeId :=
  match doc.prop? id key with
  | some list => doc.itemsAt list
  | none => []

variable {doc} in
theorem lt_of_mem_propItems {id child : Nat} {key : String} (h : child ∈ doc.propItems id key) :
    id < child ∧ child < doc.size := by
  unfold propItems at h
  split at h
  · next list hl =>
    have h1 := prop?_lt hl
    have h2 := lt_of_mem_itemsAt h
    omega
  · cases h

/-- The leaves of a tree of sources, in order. -/
def sourceItems (item : NodeId) : List SourceItem :=
  match doc.refPath? item with
  | some refPath =>
    match doc.stringProp? item "as" <|> doc.implicitAlias? refPath with
    | some name => [.path item name]
    | none => [.fault item .emptyReference]
  | none =>
    if doc.hasProp item "join" then
      if (doc.propItems item "args").isEmpty then [.fault item .emptyJoin]
      else
        ((doc.propItems item "args").attach.flatMap fun ⟨arg, _ha⟩ => sourceItems arg) ++
          match doc.prop? item "on" with
          | some expr => [.condition expr]
          | none => []
    else if doc.isQuery item then [.query item]
    else [.fault item .unsupported]
termination_by doc.size - item
decreasing_by
  have := lt_of_mem_propItems _ha
  omega

/-- The outermost queries inside an expression, in order. Properties that start with `$` are not
searched. -/
def queriesBelow (expr : NodeId) : List NodeId :=
  if doc.isQuery expr then [expr]
  else match _h : doc.value? expr with
    | some (.array items) => items.attach.flatMap fun ⟨item, _hi⟩ => queriesBelow item
    | some (.object props) => props.attach.flatMap fun ⟨(key, child), _hp⟩ =>
        if isDollarName key then [] else queriesBelow child
    | _ => []
termination_by doc.size - expr
decreasing_by
  · have := lt_of_mem_children _h _hi
    omega
  · have := lt_of_mem_children _h (List.mem_map.2 ⟨_, _hp, rfl⟩)
    omega

end Document

end SchemaRefs
