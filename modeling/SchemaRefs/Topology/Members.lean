import SchemaRefs.Topology.Basic

/-!
# The parents of members

Elements, symbols, parameters and actions have the definition or member that declares them as
parent. Members of array items belong to the member that owns the items; anonymous aspects and
return types are parents of their own.
-/

namespace SchemaRefs.Document

variable (doc : Document)

/-- The properties in which members are declared. -/
def memberKeys : List String :=
  ["elements", "enum", "params", "actions"]

/-- The parent links of all members below `owner`, whose direct members belong to `parent`. -/
def memberLinks (owner parent : NodeId) : List TopologyLink :=
  let direct := memberKeys.flatMap fun key =>
    match _h : doc.prop? owner key with
    | none => []
    | some map => (doc.entries map).attach.flatMap fun ⟨(_, member), _hm⟩ =>
        .parent member parent :: memberLinks member member
  let items := match _h : doc.objectProp? owner "items" with
    | none => []
    | some items => memberLinks items parent
  let aspect := match _h : doc.objectProp? owner "targetAspect" with
    | none => []
    | some aspect => memberLinks aspect aspect
  let returns := match _h : doc.objectProp? owner "returns" with
    | none => []
    | some returns => memberLinks returns returns
  direct ++ items ++ aspect ++ returns
termination_by doc.size - owner
decreasing_by
  · have h1 := prop?_lt _h
    have h2 := lt_of_mem_entries _hm
    omega
  all_goals
    have := prop?_lt (Option.eq_some_of_filter_eq_some _h)
    omega

end SchemaRefs.Document
