/-!
# Reference contexts

The position of a reference in a document decides how its first segment is looked up. A context
names the kind of position; its policy says which enclosing queries are searched for table aliases
and mixins, where the name is looked up when none of them binds it, and whether the last link gets
a navigation environment.
-/

namespace SchemaRefs

/-- The kinds of positions at which a reference can stand. -/
inductive Context where
  | type
  | includes
  | target
  | targetAspect
  /-- A source of a query. -/
  | source
  | keys
  | excluding
  | expand
  | inline
  /-- A filter on a segment of another reference. -/
  | refWhere
  /-- The condition of an association outside queries. -/
  | onCondition
  /-- The condition of an association published by a query. -/
  | queryOn
  /-- The condition of a mixin. -/
  | mixinOn
  /-- The condition of a join. -/
  | joinOn
  | columns
  | filter
  | having
  | groupBy
  | orderBy
  | orderByExpr
  | orderBySet
  | orderBySetExpr
  | annotated
  /-- The expression of a calculated element. -/
  | calculated
  /-- A member declaration rather than a reference. -/
  | member
deriving Repr, DecidableEq, Inhabited

/-- Which enclosing queries are searched for table aliases and mixins. -/
inductive Lexical where
  /-- None, and `$self` is not known either. -/
  | nothing
  /-- None, but names that start with `$` are known. -/
  | dollarOnly
  /-- The current query and all that enclose it. -/
  | full
  /-- As `full`, with mixins before table aliases at each level. -/
  | fullMixinsFirst
  /-- From the scope that encloses the current query. -/
  | enclosing
deriving Repr, DecidableEq, Inhabited

/-- Where a name is looked up that no enclosing query binds. -/
inductive Dynamic where
  | global
  | parent
  | target
  | query
  | source
  | expand
  | inline
  | refTarget
  | nothing
deriving Repr, DecidableEq, Inhabited

/-- How the references of a context are resolved. -/
structure Policy where
  lexical : Lexical
  dynamic : Dynamic
  /-- The last link gets a navigation environment. -/
  envOnLast : Bool := false
deriving Repr, DecidableEq, Inhabited

namespace Context

/-- All contexts. -/
def all : List Context :=
  [.type, .includes, .target, .targetAspect, .source, .keys, .excluding, .expand,
    .inline, .refWhere,
    .onCondition, .queryOn, .mixinOn, .joinOn, .columns, .filter, .having, .groupBy, .orderBy,
    .orderByExpr, .orderBySet, .orderBySetExpr, .annotated, .calculated, .member]

/-- The policy of each context. -/
def policy : Context → Policy
  | .type | .includes | .target | .targetAspect => ⟨.nothing, .global, false⟩
  | .source => ⟨.nothing, .global, true⟩
  | .keys => ⟨.nothing, .target, false⟩
  | .excluding => ⟨.nothing, .source, false⟩
  | .expand => ⟨.dollarOnly, .expand, false⟩
  | .inline => ⟨.dollarOnly, .inline, false⟩
  | .refWhere => ⟨.dollarOnly, .refTarget, false⟩
  | .onCondition | .annotated | .calculated => ⟨.dollarOnly, .parent, false⟩
  | .queryOn => ⟨.dollarOnly, .query, false⟩
  | .mixinOn | .joinOn | .filter => ⟨.fullMixinsFirst, .source, false⟩
  | .columns | .having | .groupBy | .orderByExpr => ⟨.full, .source, false⟩
  | .orderBy => ⟨.full, .query, false⟩
  | .orderBySet => ⟨.enclosing, .query, false⟩
  | .orderBySetExpr => ⟨.enclosing, .nothing, false⟩
  | .member => ⟨.nothing, .parent, true⟩

/-- The name of a context in messages and answers. -/
def tag : Context → String
  | .type => "type"
  | .includes => "includes"
  | .target => "target"
  | .targetAspect => "targetAspect"
  | .source => "from"
  | .keys => "keys"
  | .excluding => "excluding"
  | .expand => "expand"
  | .inline => "inline"
  | .refWhere => "ref-where"
  | .onCondition => "on"
  | .queryOn => "query-on"
  | .mixinOn => "mixin-on"
  | .joinOn => "join-on"
  | .columns => "columns"
  | .filter => "where"
  | .having => "having"
  | .groupBy => "groupBy"
  | .orderBy => "orderBy"
  | .orderByExpr => "orderBy-expr"
  | .orderBySet => "orderBy-set"
  | .orderBySetExpr => "orderBy-set-expr"
  | .annotated => "annotation"
  | .calculated => "value"
  | .member => "member"

/-- The context with a given tag. -/
def ofTag? (tag : String) : Option Context :=
  all.find? (·.tag == tag)

/-- The name of a context in lower case, its words divided by hyphens. -/
def hyphenated : Context → String
  | .targetAspect => "target-aspect"
  | .groupBy => "group-by"
  | .orderBy => "order-by"
  | .orderByExpr => "order-by-expr"
  | .orderBySet => "order-by-set"
  | .orderBySetExpr => "order-by-set-expr"
  | context => context.tag

/-- References of the context denote top-level definitions. -/
def isGlobal (context : Context) : Bool :=
  context.policy.dynamic == .global

/-- The context of an expression nested in a reference of this context. -/
def nested : Context → Context
  | .orderBy => .orderByExpr
  | .orderBySet => .orderBySetExpr
  | context => context

end Context

end SchemaRefs
