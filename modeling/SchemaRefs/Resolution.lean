import SchemaRefs.Document.Basic
import SchemaRefs.Error

/-!
# Resolutions

A resolution says what a reference denotes: one link per segment, the scope in which the first
segment was found, and what bound it there. References to built-in types and to variables such as
`$now` have no links, because they denote no node of the document.
-/

namespace SchemaRefs

/-- One resolved segment. -/
structure Link where
  /-- The node that the segment denotes. -/
  art : NodeId
  /-- The environment in which the next segment is looked up. -/
  env : Option NodeId
deriving Repr, DecidableEq, Inhabited

/-- Where the first segment of a reference was found. -/
inductive Scope where
  | global
  | parent
  | target
  | query
  | source
  | tableAlias
  | mixin
  | selfRef
  /-- A variable such as `$now`. -/
  | magic
  /-- A built-in type. -/
  | builtin
  | expand
  | inline
  | refTarget
  | param
deriving Repr, DecidableEq, Inhabited

/-- The name of a scope. -/
def Scope.tag : Scope → String
  | .global => "global"
  | .parent => "parent"
  | .target => "target"
  | .query => "query"
  | .source => "source"
  | .tableAlias => "alias"
  | .mixin => "mixin"
  | .selfRef => "$self"
  | .magic => "$magic"
  | .builtin => "builtin"
  | .expand => "expand"
  | .inline => "inline"
  | .refTarget => "ref-target"
  | .param => "param"

/-- What bound the first segment of a reference. -/
inductive Binding where
  /-- A table alias of the query with a number. -/
  | tableAlias (name : String) (query : Nat)
  | mixin (name : String) (query : Nat)
  /-- An element that a table alias provides. -/
  | source (name : String) (query : Nat)
  /-- The way up from an anonymous aspect to the owner of its composition. -/
  | up (composition : NodeId)
  | selfRef (query : Option Nat)
deriving Repr, DecidableEq, Inhabited

/-- What a reference denotes. -/
structure Resolution where
  links : List Link
  /-- The node that the reference denotes. -/
  art : Option NodeId
  /-- The member or definition that uses the reference. -/
  parent : Option NodeId
  scope : Scope
  env : Option Binding
  context : Context
deriving Repr, DecidableEq, Inhabited

namespace Resolution

/-- The environment of the last link. -/
def finalEnv? (resolution : Resolution) : Option NodeId :=
  resolution.links.getLast?.bind Link.env

/-! ## As a JSON value -/

variable (doc : Document)

/-- A node, shown by the text of its path. -/
def nodeJson (id : NodeId) : Json :=
  .string (doc.pathText id)

/-- An optional node. -/
def nodeJson? (id : Option NodeId) : Json :=
  Json.optional (nodeJson doc) id

/-- A link. -/
def linkJson (link : Link) : Json :=
  .object [("art", nodeJson doc link.art), ("env", nodeJson? doc link.env)]

/-- The binding of the first segment. -/
def bindingJson : Binding → Json
  | .tableAlias name query => .object [("alias", .string name), ("query", .nat query)]
  | .mixin name query => .object [("mixin", .string name), ("query", .nat query)]
  | .source name query => .object [("source", .string name), ("query", .nat query)]
  | .up composition => .object [("up", nodeJson doc composition)]
  | .selfRef query => .object [("self", Json.optional Json.nat query)]

/-- A resolution, with nodes shown by their paths. -/
def toJson (resolution : Resolution) : Json :=
  .object [
    ("context", .string resolution.context.tag),
    ("scope", .string resolution.scope.tag),
    ("art", nodeJson? doc resolution.art),
    ("parent", nodeJson? doc resolution.parent),
    ("env", Json.optional (bindingJson doc) resolution.env),
    ("links", .array (resolution.links.map (linkJson doc)))]

end Resolution

end SchemaRefs
