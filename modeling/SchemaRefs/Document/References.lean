import SchemaRefs.Document.Facts

/-!
# The references of a definition

`Document.referencePaths` lists the paths of all references below a node, in document order: objects
with a `ref`, names of definitions in `type`, `target`, `targetAspect` and `includes`, and names of
elements in `excluding`. Built-in types are not references into the document, and properties that
start with `$` are not searched.

The search keeps one path, which is extended before a child is visited and shortened again
afterwards.
-/

namespace SchemaRefs

/-! ## The state of a search -/

/-- A search for references: the path of the node that is visited, and the paths listed so far. -/
structure Search where
  path : Path
  found : List Path
deriving Repr, DecidableEq, Inhabited

namespace Search

/-- Lists the path of the visited node. -/
def note : StateM Search Unit :=
  modify fun search => { search with found := search.found ++ [search.path] }

/-- Goes on at a child, and comes back. -/
def below (step : Step) (visit : StateM Search Unit) : StateM Search Unit := do
  modify fun search => { search with path := search.path.push step }
  visit
  modify fun search => { search with path := search.path.pop.1 }

end Search

namespace Document

open Search

variable (doc : Document)

/-- The properties whose string values name a definition. -/
def isNameProperty (key : String) : Bool :=
  key == "type" || key == "target" || key == "targetAspect"

/-- The properties whose string items are names. -/
def isNameList (key : String) : Bool :=
  key == "includes" || key == "excluding"

/-- The path of a property value that is a name, unless the name is built in. -/
def noteName (child : NodeId) : StateM Search Unit :=
  if (doc.string? child).any isBuiltinType then pure () else note

/-- Searches the node at the path of the search, and what is below it. -/
def visit (id : NodeId) : StateM Search Unit :=
  match _h : doc.value? id with
  | some (.array items) =>
    items.attach.zipIdx.forM fun (⟨item, _hi⟩, position) => below (.index position) (visit item)
  | some (.object props) =>
    let held := match _hr : doc.refPath? id with
      | none => pure ()
      | some refPath =>
        (if (doc.itemsAt refPath).isEmpty then pure () else note) *>
        -- filters and arguments of segments hold references of their own
        (doc.itemsAt refPath).attach.zipIdx.forM fun (⟨segment, _hi⟩, position) =>
          ["args", "where"].forM fun key =>
            match _hs : doc.prop? segment key with
            | none => pure ()
            | some expr =>
              below (.key "ref") (below (.index position) (below (.key key) (visit expr)))
    held *> props.attach.forM fun ⟨(key, child), _hp⟩ =>
      if key == "ref" || isDollarName key then pure ()
      else below (.key key) <|
        if isNameProperty key && doc.isString child then doc.noteName child
        else if isNameList key then
          (doc.itemsAt child).attach.zipIdx.forM fun (⟨item, _hi⟩, position) =>
            below (.index position) (if doc.isString item then note else visit item)
        else visit child
  | _ => pure ()
termination_by doc.size - id
decreasing_by
  · have := lt_of_mem_children _h _hi
    omega
  · have h1 := prop?_lt (Option.eq_some_of_filter_eq_some _hr)
    have h2 := lt_of_mem_itemsAt _hi
    have h3 := prop?_lt _hs
    omega
  · have h1 := lt_of_mem_children _h (List.mem_map.2 ⟨_, _hp, rfl⟩)
    have h2 := lt_of_mem_itemsAt _hi
    omega
  · have := lt_of_mem_children _h (List.mem_map.2 ⟨_, _hp, rfl⟩)
    omega

/-- The paths of all references below a node. -/
def referencePaths (id : NodeId) : List Path :=
  ((doc.visit id).run ⟨doc.pathOf id, []⟩).2.found

end Document

end SchemaRefs
