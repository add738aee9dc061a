import SchemaRefs.Error
import SchemaRefs.Topology.Basic

/-!
# The result members of columns

Each column of a query yields a member of the result elements: by its name, or by its position when
it has none and no wildcard came before. The items of an inlined column yield members of the same
elements, under a name that starts with the column's; those of an expanded column yield members of
the column's own element. Without tolerance every column has to yield a member, and every result
member has to come from a column.
-/

namespace SchemaRefs

/-- A malformed query, reported at the given node. -/
def Document.malformedAt (doc : Document) (node : NodeId) (message : String) : ModelError :=
  ModelError.malformed message (doc.location? node)

/-- What is known after some of the columns of a list. -/
structure ColumnWalk where
  /-- A wildcard came before. -/
  wildcard : Bool := false
  /-- The number of result members of this level. -/
  linked : Nat := 0
  links : List TopologyLink := []
deriving Repr, DecidableEq, Inhabited

namespace Document

variable (doc : Document) (options : Options)

/-- The column is the wildcard. -/
def isWildcard (column : NodeId) : Bool :=
  doc.string? column == some "*"

/-- Refuses a column, or skips it when partial documents are tolerated. -/
def refuseColumn (column : NodeId) (message : String) (walk : ColumnWalk) :
    Except ModelError ColumnWalk :=
  if options.toleratePartial then .ok walk else .error (doc.malformedAt column message)

/-- The elements of the items of an expanded column. -/
def expandedElements? (element : NodeId) : Option NodeId :=
  doc.prop? element "elements" <|>
    (doc.prop? element "items").bind fun items => doc.prop? items "elements"

/-- The name of a column, or what is wrong with it. A column without name takes the name of the
result member at its position, before any wildcard and outside inlined columns. -/
def columnKey (elements : NodeId) (start : String) (number position : Nat) (column : NodeId)
    (wildcard : Bool) : Except String String :=
  match doc.columnName? column with
  | some name => .ok name
  | none =>
    if !wildcard && start.isEmpty then
      match (doc.entries elements)[position]? with
      | some (name, _) => .ok name
      | none => .error ("column " ++ toString (position + 1) ++ " of query " ++ toString number ++
          " infers no member")
    else .error ("column " ++ toString (position + 1) ++ " of query " ++ toString number ++
      " has no name")

/-- Links the columns of a list with members of `elements` whose names start with `start`. -/
def linkColumns (elements : NodeId) (start : String) (number : Nat) (columns : NodeId) :
    Except ModelError ColumnWalk :=
  (doc.itemsAt columns).attach.zipIdx.foldlM (fun walk (⟨column, _hc⟩, position) =>
    if doc.isWildcard column then .ok { walk with wildcard := true }
    else
      match doc.columnKey elements start number position column walk.wildcard with
      | .error message => doc.refuseColumn options column message walk
      | .ok name =>
        match _h : doc.prop? column "inline" with
        | some inlined => do
          let inner ← linkColumns elements (start ++ name ++ "_") number inlined
          .ok { walk with linked := walk.linked + inner.linked, links := walk.links ++ inner.links }
        | none =>
          let full := start ++ name
          match doc.prop? elements full with
          | none =>
            doc.refuseColumn options column
              ("column `" ++ full ++ "` of query " ++ toString number ++ " has no result member")
              walk
          | some element =>
            let walk := { walk with
              linked := walk.linked + 1
              links := walk.links ++ [.column column element] }
            match _h : doc.prop? column "expand" with
            | none => .ok walk
            | some expanded =>
              match doc.expandedElements? element with
              | none => doc.refuseColumn options column
                  ("expanded column `" ++ full ++ "` of query " ++ toString number ++
                    " has no result members") walk
              | some elements => do
                let inner ← linkColumns elements "" number expanded
                .ok { walk with links := walk.links ++ inner.links })
    {}
termination_by doc.size - columns
decreasing_by
  all_goals
    have h1 := lt_of_mem_itemsAt _hc
    have h2 := prop?_lt _h
    omega

/-- Links the columns of a query with its result members, if it has both. -/
def scopeLinks (scope : QueryScope) : Except ModelError (List TopologyLink) :=
  match doc.prop? scope.select "columns", scope.elements? doc with
  | some columns, some elements => do
    let walk ← doc.linkColumns options elements "" scope.number columns
    let openEnded := (doc.itemsAt columns).any fun column =>
      doc.isWildcard column || doc.hasProp column "inline"
    let claimed := (doc.entries elements).length
    if !openEnded && decide (walk.linked < claimed) && !options.toleratePartial then
      .error (doc.malformedAt columns ("query " ++ toString scope.number ++ " has " ++
        toString claimed ++ " result members but only " ++ toString walk.linked ++ " columns"))
    else .ok walk.links
  | _, _ => .ok []

end Document

end SchemaRefs
