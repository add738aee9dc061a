/-!
# Node handles
-/

namespace SchemaRefs

/-- The handle of a node: its position in the pre-order of its document. -/
abbrev NodeId := Nat

end SchemaRefs
