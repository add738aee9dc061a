import SchemaRefs.Session.Navigation
import SchemaRefs.Site

/-!
# The first segment of a reference

The first segment is looked up in the enclosing queries, as far as the context admits, from the
inside out: the nearest query that binds the name as a table alias or as a mixin decides. A name
that starts with `$` comes next. What is left is looked up where the context says: among the
definitions, in the parent of the member, in the target of an association, in the result or in the
sources of the query, or in the environment of an outer reference.
-/

namespace SchemaRefs

/-- The number of enclosing queries that are searched. -/
def maxScopeWalk : Nat := 10000

/-- What the first segment of a reference denotes. -/
inductive Head where
  | bound (link : Link) (scope : Scope) (env : Option Binding)
  /-- No node of the document; the remaining segments are not looked at. -/
  | unlinked (scope : Scope)
deriving Repr, DecidableEq, Inhabited

namespace Model

open Inquiry

variable (m : Model) (site : Site) (topology : Topology)

/-- A head that denotes a node without further binding. -/
def plainHead (art : NodeId) (scope : Scope) : Head :=
  .bound ⟨art, none⟩ scope none

/-- A node in a message. -/
def placeText (id : NodeId) : String :=
  "`" ++ m.doc.pathText id ++ "`"

/-- The scope of the innermost query around the reference. -/
def siteScope? : Option QueryScope :=
  site.query.bind topology.scope?

/-! ## Enclosing queries -/

/-- What a table alias denotes. -/
def aliasLink : AliasBinding → Inquiry Link
  | .path item => do
    let path := m.doc.pathOf item
    match (← resolutionAt path).links.getLast? with
    | some link => return link
    | none => assert (.unlinkedSource path)
  | .query _ index =>
    match topology.scope? index with
    | some scope => return ⟨scope.node, scope.elementsOwner⟩
    | none => assert (.noSubquery index)

/-- Table aliases bind the name: it is not a bare name, or it is expanded or inlined. -/
def aliasesVisible (segments : Nat) : Bool :=
  decide (1 < segments) || m.doc.hasProp site.holder "expand" || m.doc.hasProp site.holder "inline"

/-- The head bound by a mixin of a query. -/
def mixinHead (name : String) (scope : QueryScope) (mixin : NodeId) : Head :=
  .bound ⟨mixin, none⟩ .mixin (some (.mixin name scope.number))

/-- The head bound by a table alias of a query. -/
def aliasHead (name : String) (scope : QueryScope) (binding : AliasBinding) : Inquiry Head := do
  return .bound (← m.aliasLink topology binding) .tableAlias (some (.tableAlias name scope.number))

/-- What a query binds a name to. -/
def bindingIn (name : String) (mixinsFirst visible : Bool) (scope : QueryScope) :
    Inquiry (Option Head) := do
  let mixin := (Table.get? scope.mixins name).map (mixinHead name scope)
  let tableAlias := if visible then Table.get? scope.aliases name else none
  match mixinsFirst, mixin, tableAlias with
  | true, some head, _ => return some head
  | _, _, some binding => return some (← m.aliasHead topology name scope binding)
  | _, mixin, none => return mixin

/-- The binding of a name in the query with an index or in those around it. -/
def lexicalFrom (name : String) (mixinsFirst visible : Bool) :
    (steps : Nat) → (index : Option Nat) → Inquiry (Option Head)
  | _, none => return none
  | 0, some index => assert (.endlessScopes (index + 1))
  | steps + 1, some index => do
    match topology.scope? index with
    | none => assert (.noScope index)
    | some scope =>
      match ← m.bindingIn topology name mixinsFirst visible scope with
      | some head => return some head
      | none => lexicalFrom name mixinsFirst visible steps scope.next

/-- The index of the query from which a lexical search starts. -/
def lexicalStart? (lexical : Lexical) : Option Nat :=
  match lexical with
  | .enclosing => (siteScope? site topology).bind QueryScope.next
  | _ => site.query

/-- The binding of a name in the enclosing queries. -/
def lexicalHead (lexical : Lexical) (name : String) (segments : Nat) : Inquiry (Option Head) :=
  m.lexicalFrom topology name (lexical == .fullMixinsFirst) (m.aliasesVisible site segments)
    maxScopeWalk (lexicalStart? site topology lexical)

/-- The meaning of a name that starts with `$`: the definition itself, or a variable. -/
def dollarHead (name : String) : Inquiry (Option Head) := do
  if !isDollarName name then return none
  else if name == "$self" || name == "$projection" then
    let env ← m.envOf site.main
    return some (.bound ⟨site.main, env⟩ .selfRef
      (some (.selfRef ((siteScope? site topology).map QueryScope.number))))
  else return some (.unlinked .magic)

/-! ## Other places -/

/-- Among the definitions; a single name in a type may be built in. -/
def globalHead (name : String) (segments : Nat) : Inquiry Head :=
  match m.doc.definition? name with
  | some definition => return plainHead definition .global
  | none =>
    if segments = 1 ∧ site.context = .type ∧ isBuiltinType name then return .unlinked .builtin
    else fail (.noDefinition name)

/-- The way up from an anonymous aspect: to the structure that owns its composition. -/
def upHead (aspect : NodeId) : Inquiry (Option Head) := do
  if !(m.doc.step? aspect).any (·.isKey "targetAspect") then return none
  else
    match m.doc.container? aspect with
    | none => return none
    | some composition =>
      match (m.doc.container? composition).bind m.doc.container? with
      | none => return none
      | some owner =>
        let env ← m.envOf owner
        return some (.bound ⟨owner, env⟩ .parent (some (.up composition)))

/-- In the parent of the member that uses the reference. -/
def parentHead (name : String) : Inquiry Head := do
  match if site.member.isSome then site.memberParent else some site.main with
  | none => fail (.notFound name "the enclosing structure")
  | some parent =>
    let env ← m.envOf parent
    match env.bind fun env => m.doc.memberIn? env name with
    | some member => return plainHead member .parent
    | none =>
      let up ← if name == "up_" then m.upHead parent else pure none
      match up with
      | some head => return head
      | none => fail (.notFound name (m.placeText parent))

/-- In the target of the association that lists keys. -/
def targetHead (name : String) : Inquiry Head := do
  match site.member with
  | none => fail (.notFound name "the association target")
  | some association =>
    match ← m.envOf association with
    | none => fail (.noKeyTarget (m.doc.pathOf association) name)
    | some env =>
      match m.doc.memberIn? env name with
      | some member => return plainHead member .target
      | none => fail (.notFound name ("target " ++ m.placeText env))

/-- The environment of a table alias. -/
def aliasEnv (binding : AliasBinding) : Inquiry (Option NodeId) := do
  let link ← m.aliasLink topology binding
  match link.env with
  | some env => return some env
  | none => m.envOf link.art

/-- The one element of a name among the aliases, given the one found so far. -/
def searchSources (name : String) (number : Nat) :
    List (String × AliasBinding) → Option (NodeId × String) → Inquiry (Option (NodeId × String))
  | [], found => return found
  | (tableAlias, binding) :: rest, found => do
    match (← m.aliasEnv topology binding).bind fun env => m.doc.memberIn? env name with
    | none => searchSources name number rest found
    | some element =>
      match found with
      | some (_, first) => fail (.ambiguous name first tableAlias number)
      | none => searchSources name number rest (some (element, tableAlias))

/-- In the sources of the query, where exactly one of them has to provide the name. -/
def sourceHead (name : String) : Inquiry Head := do
  match siteScope? site topology with
  | none => fail (.outsideQuery name)
  | some scope =>
    match ← m.searchSources topology name scope.number scope.aliases none with
    | some (element, tableAlias) =>
      return .bound ⟨element, none⟩ .source (some (.source tableAlias scope.number))
    | none => fail (.notFound name ("the sources of query " ++ toString scope.number))

/-- The node that carries the result elements of the query around the reference. -/
def resultCarrier? : Option NodeId :=
  (siteScope? site topology).bind fun scope =>
    if scope.number = 1 then scope.elementsOwner <|> some site.main else scope.elementsOwner

/-- In the result of the query. A sort order may also name an element of the sources. -/
def queryHead (name : String) : Inquiry Head :=
  match (resultCarrier? site topology).bind fun owner => m.doc.memberIn? owner name with
  | some member => return plainHead member .query
  | none =>
    if site.context = .orderBy then m.sourceHead site topology name
    else fail (.notFound name "the query result")

/-- The environment that the outer reference of a filter or of a column item provides. A filter sees
the environment of its segment. -/
def baseEnv : Inquiry (Option NodeId) := do
  match site.base with
  | none => return none
  | some (.segment path position) =>
    let outer ← resolutionAt path
    match outer.links[position]? with
    | none => assert (.unlinkedFilter position path outer.links.length)
    | some link =>
      match link.env with
      | some env =>
        if position + 1 = outer.links.length then return some env else m.envOf link.art
      | none => m.envOf link.art
  | some (.column path) =>
    let outer ← resolutionAt path
    match outer.finalEnv?, outer.art with
    | some env, _ => return some env
    | none, some art => m.envOf art
    | none, none => return none

/-- In the environment of the outer reference. -/
def baseHead (name : String) (scope : Scope) : Inquiry Head := do
  match ← m.baseEnv site with
  | none => fail (.noBaseElements name)
  | some env =>
    match m.doc.memberIn? env name with
    | some member => return plainHead member scope
    | none => fail (.notFound name (m.placeText env))

/-- Where the context says, for a name that no enclosing query binds. -/
def dynamicHead (name : String) (segments : Nat) : Dynamic → Inquiry Head
  | .global => m.globalHead site name segments
  | .parent => m.parentHead site name
  | .target => m.targetHead site name
  | .query => m.queryHead site topology name
  | .source => m.sourceHead site topology name
  | .expand => m.baseHead site name .expand
  | .inline => m.baseHead site name .inline
  | .refTarget => m.baseHead site name .refTarget
  | .nothing => fail (.notFound name "the enclosing queries")

/-- The binding of a name by enclosing queries or as a name that starts with `$`. -/
def boundHead (lexical : Lexical) (name : String) (segments : Nat) : Inquiry (Option Head) := do
  match lexical with
  | .nothing => return none
  | .dollarOnly => m.dollarHead site topology name
  | .full | .fullMixinsFirst | .enclosing =>
    match ← m.lexicalHead site topology lexical name segments with
    | some head => return some head
    | none => m.dollarHead site topology name

/-- The meaning of the first segment under the policy of the context. -/
def policyHead (name : String) (segments : Nat) : Inquiry Head := do
  let policy := site.context.policy
  match ← m.boundHead site topology policy.lexical name segments with
  | some head => return head
  | none => m.dynamicHead site topology name segments policy.dynamic

/-- A parameter of the definition. -/
def paramHead (name : String) : Inquiry Head :=
  match (m.doc.prop? site.main "params").bind fun params => m.doc.prop? params name with
  | some param => return plainHead param .param
  | none => fail (.notFound name "the parameters")

/-- The meaning of the first segment. A reference can ask for a parameter or for a definition. -/
def headOf (name : String) (segments : Nat) : Inquiry Head :=
  if m.doc.flag site.holder "param" then m.paramHead site name
  else if m.doc.flag site.holder "global" then m.globalHead site name segments
  else m.policyHead site topology name segments

end Model

end SchemaRefs
