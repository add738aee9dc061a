import SchemaRefs.Proofs.Requests

/-!
# Documents with a chain of definitions

The definitions of a chain are numbered. Each has the next one as its type, and nothing else. A
document may have other definitions before them (`holdsChain_of_layout`); the link of each is what
the document defines by the next name (`HoldsChain.chainLink_eq`).

In the document that is nothing but a chain, the type of the last definition is not defined. So
there are documents with chains of every length (`chainLink_chainNode`).
-/

namespace SchemaRefs

variable {count i : Nat}

namespace Json

theorem propHandles_append (base : Nat) (first second : List (String × Json)) :
    propHandles base (first ++ second) =
      propHandles base first ++ propHandles (base + sizeProps first) second := by
  induction first generalizing base with
  | nil => rfl
  | cons pair rest ih =>
    rw [List.cons_append, propHandles, ih, propHandles, sizeProps, Nat.add_assoc, List.cons_append]

theorem layoutProps_append (base parent : Nat) (first second : List (String × Json)) :
    layoutProps base parent (first ++ second) =
      layoutProps base parent first ++ layoutProps (base + sizeProps first) parent second := by
  induction first generalizing base with
  | nil => rfl
  | cons pair rest ih =>
    rw [List.cons_append, layoutProps, ih, layoutProps, sizeProps, Nat.add_assoc, List.append_assoc]

end Json

/-- The name of a definition has one letter more than its number says. -/
def chainName (index : Nat) : String :=
  String.ofList (List.replicate (index + 1) 'T')

theorem chainName_injective {j : Nat} (h : chainName i = chainName j) : i = j := by
  have hlength := congrArg (fun name => name.toList.length) h
  simpa [chainName] using hlength

theorem ne_chainName {name : String} (h : name.toList.head? ≠ some 'T') (index : Nat) :
    name ≠ chainName index := by
  rintro rfl
  simp [chainName, List.replicate_succ] at h

/-- Definitions from a number on, each with the next one as its type. -/
def chainDefinitions (first : Nat) : (count : Nat) → List (String × Json)
  | 0 => []
  | count + 1 => (chainName first, .object [("type", .string (chainName (first + 1)))]) ::
      chainDefinitions (first + 1) count

theorem keys_chainDefinitions (first count : Nat) :
    Table.keys (chainDefinitions first count) = (List.range' first count).map chainName := by
  induction count generalizing first with
  | zero => rfl
  | succ count ih => rw [chainDefinitions, Table.keys_cons, ih, List.range'_succ, List.map_cons]

theorem nodup_keys_chainDefinitions (first count : Nat) :
    (Table.keys (chainDefinitions first count)).Nodup := by
  rw [keys_chainDefinitions]
  exact List.Pairwise.map chainName (fun i j hne h => hne (chainName_injective h)) List.nodup_range'

theorem distinctKeysProps_append_chain {others : List (String × Json)}
    (h : Json.DistinctKeysProps others) {first : Nat} :
    Json.DistinctKeysProps (others ++ chainDefinitions first count) := by
  induction others with
  | nil =>
    induction count generalizing first with
    | zero => trivial
    | succ count ih =>
      refine ⟨?_, ih⟩
      simp [Json.DistinctKeys, Json.DistinctKeysProps, Table.keys]
  | cons entry rest ih => exact ⟨h.1, ih h.2⟩

theorem mem_propHandles_chainDefinitions (base first : Nat) (h : i < count) :
    (chainName (first + i), base + 2 * i) ∈ Json.propHandles base
      (chainDefinitions first count) := by
  induction count generalizing base first i with
  | zero => cases h
  | succ count ih =>
    cases i with
    | zero => exact List.mem_cons_self
    | succ i =>
      have hrest := ih (base + 2) (first + 1) (Nat.lt_of_succ_lt_succ h)
      rw [Nat.add_right_comm first 1 i, Nat.add_right_comm base 2] at hrest
      exact List.mem_cons_of_mem _ hrest

/-- The nodes of a definition and of its type. -/
theorem getElem?_layoutProps_chainDefinitions (base parent first : Nat) (h : i < count) :
    (Json.layoutProps base parent (chainDefinitions first count))[2 * i]? =
        some ⟨.object [("type", base + 2 * i + 1)], some parent,
          some (.key (chainName (first + i)))⟩ ∧
      (Json.layoutProps base parent (chainDefinitions first count))[2 * i + 1]? =
        some ⟨.string (chainName (first + i + 1)), some (base + 2 * i), some (.key "type")⟩ := by
  induction count generalizing base first i with
  | zero => cases h
  | succ count ih =>
    cases i with
    | zero => exact ⟨rfl, rfl⟩
    | succ i =>
      obtain ⟨hdefinition, htype⟩ := ih (base + 2) (first + 1) (Nat.lt_of_succ_lt_succ h)
      rw [Nat.add_right_comm first 1 i, Nat.add_right_comm base 2] at hdefinition htype
      exact ⟨hdefinition, htype⟩

/-! ## Documents that hold a chain -/

theorem distinctKeys_chainDefinitions {others : List (String × Json)}
    (h : (schemaTree others).DistinctKeys) (hapart : ∀ i < count, chainName i ∉ Table.keys others) :
    (schemaTree (others ++ chainDefinitions 0 count)).DistinctKeys := by
  obtain ⟨hroot, ⟨hkeys, hothers⟩, _⟩ := h
  refine ⟨hroot, ⟨?_, distinctKeysProps_append_chain hothers⟩, trivial⟩
  rw [Table.keys, List.map_append]
  refine List.nodup_append.mpr ⟨hkeys, nodup_keys_chainDefinitions 0 count, ?_⟩
  rintro name hname _ hchain rfl
  change name ∈ Table.keys (chainDefinitions 0 count) at hchain
  rw [keys_chainDefinitions] at hchain
  obtain ⟨i, hi, rfl⟩ := List.mem_map.mp hchain
  exact hapart i (by simpa using hi) hname

namespace Model

variable {m : Model} {count i : Nat} {node : Nat → NodeId}

variable (m) in
/-- The definitions of a chain are nodes of the document. The node after each is the name of its
type. -/
structure HoldsChain (count : Nat) (node : Nat → NodeId) : Prop where
  entry : ∀ i < count, (chainName i, node i) ∈ m.doc.definitionEntries
  value : ∀ i < count, m.doc.value? (node i) = some (.object [("type", node i + 1)])
  type : ∀ i < count, m.doc.value? (node i + 1) = some (.string (chainName (i + 1)))

theorem definitionEntries_of_layout {definitions : List (String × Json)}
    (hnodes : m.doc.nodes.toList = (schemaTree definitions).layout 0 none none)
    (hone : m.doc.definitions = 1) :
    m.doc.definitionEntries = Json.propHandles 2 definitions := by
  refine Document.entries_of_object ?_
  rw [hone, Document.value?, valueIn, ← Array.getElem?_toList, hnodes, layout_schemaTree]
  rfl

/-- A chain that comes after other definitions. -/
theorem holdsChain_of_layout {others : List (String × Json)}
    (hnodes : m.doc.nodes.toList =
      (schemaTree (others ++ chainDefinitions 0 count)).layout 0 none none)
    (hone : m.doc.definitions = 1) :
    m.HoldsChain count fun i => 2 + Json.sizeProps others + 2 * i := by
  -- the nodes of the chain, counted from its first one
  have hvalue : ∀ offset, m.doc.value? (2 + Json.sizeProps others + offset) =
      (Json.layoutProps (2 + Json.sizeProps others) 1 (chainDefinitions 0 count))[offset]?.map
        Node.value := by
    intro offset
    have hlength := Json.length_layoutProps 2 1 others
    have hindex : 2 + Json.sizeProps others + offset =
        Json.sizeProps others + offset + 1 + 1 := by omega
    rw [Document.value?, valueIn, ← Array.getElem?_toList, hnodes, layout_schemaTree,
      Json.layoutProps_append, hindex,
      List.getElem?_cons_succ, List.getElem?_cons_succ,
      List.getElem?_append_right (by omega), hlength, Nat.add_sub_cancel_left]
  refine ⟨fun i hi => ?_, fun i hi => ?_, fun i hi => ?_⟩
  · rw [definitionEntries_of_layout hnodes hone, Json.propHandles_append]
    have hmem := mem_propHandles_chainDefinitions (2 + Json.sizeProps others) 0 hi
    rw [Nat.zero_add] at hmem
    exact List.mem_append_right _ hmem
  · rw [hvalue, (getElem?_layoutProps_chainDefinitions _ 1 0 hi).1]
    rfl
  · rw [Nat.add_assoc, hvalue, (getElem?_layoutProps_chainDefinitions _ 1 0 hi).2, Nat.zero_add]
    rfl

namespace HoldsChain

variable (h : m.HoldsChain count node)
include h

theorem prop?_eq (hi : i < count) (key : String) :
    m.doc.prop? (node i) key = Table.get? [("type", node i + 1)] key := by
  have hvalue := h.value i hi
  rw [Document.value?] at hvalue
  rw [Document.prop?, propIn, hvalue]

theorem definition?_eq (hi : i < count) : m.doc.definition? (chainName i) = some (node i) :=
  Document.prop?_of_mem_entries (h.entry i hi)

theorem owner?_eq (hi : i < count) : m.doc.owner? (node i) = some (node i) :=
  Document.owner?_of_isDefinition
    (Document.isDefinition_iff.mpr (Document.container?_of_prop? (h.definition?_eq hi)).1)

theorem hasStructure_eq (hi : i < count) : m.doc.hasStructure (node i) = false := by
  simp [Document.hasStructure, Document.elements?, Document.target?, Document.targetAspect?,
    Document.enum?, Document.itemType?, Document.objectProp?, h.prop?_eq hi, Table.get?_cons]

/-- The link of a definition is what the next name denotes. -/
theorem chainLink_eq (hi : i < count) :
    m.chainLink (node i) = .answer (m.doc.definition? (chainName (i + 1))) := by
  have htype : m.doc.typeRef? (node i) = some (node i + 1) := by
    rw [Document.typeRef?, h.prop?_eq hi, Table.get?_cons, if_pos rfl]
  have horigin : m.doc.originMarker? (node i) = none := by
    rw [Document.originMarker?, h.prop?_eq hi, Table.get?_cons, if_neg (by decide), Table.get?_nil]
  have hname : m.doc.string? (node i + 1) = some (chainName (i + 1)) := by
    rw [Document.string?, h.type i hi]
  have htarget : m.typeTarget (node i + 1) = .answer (m.doc.definition? (chainName (i + 1))) := by
    rw [typeTarget, hname]
    rfl
  rw [chainLink, htype, horigin, partTarget, htarget]
  cases m.doc.definition? (chainName (i + 1)) <;> rfl

end HoldsChain

end Model

/-! ## Documents that are one chain -/

/-- The document with a chain of `count` definitions. -/
def chainModel (count : Nat) : Model :=
  have hempty : (schemaTree []).DistinctKeys := by decide +kernel
  ⟨.ofDefinitions (chainDefinitions 0 count)
    (distinctKeys_chainDefinitions hempty fun _ _ => List.not_mem_nil), {}⟩

/-- The handle of a definition. -/
def chainNode (index : Nat) : NodeId :=
  2 * index + 2

namespace Model

variable {count i : Nat}

theorem holdsChain_chainModel : (chainModel count).HoldsChain count chainNode := by
  have hholds : (chainModel count).HoldsChain count fun i => 2 + Json.sizeProps [] + 2 * i :=
    holdsChain_of_layout rfl rfl
  rwa [funext fun i => Nat.add_comm (2 + Json.sizeProps []) (2 * i)] at hholds

/-- The type of the last definition is not defined. -/
theorem definition?_chainName_count :
    (chainModel count).doc.definition? (chainName count) = none := by
  cases hd : (chainModel count).doc.definition? (chainName count) with
  | none => rfl
  | some id =>
    have hmem : (chainName count, id) ∈ (chainModel count).doc.definitionEntries :=
      Document.mem_entries_of_prop? hd
    rw [definitionEntries_of_layout rfl rfl] at hmem
    have hkey : chainName count ∈ Table.keys (Json.propHandles 2 (chainDefinitions 0 count)) :=
      List.mem_map.mpr ⟨_, hmem, rfl⟩
    rw [Json.keys_propHandles, keys_chainDefinitions] at hkey
    obtain ⟨j, hj, hname⟩ := List.mem_map.mp hkey
    rw [chainName_injective hname] at hj
    simp at hj

theorem chainLink_chainNode (h : i < count) : (chainModel count).chainLink (chainNode i) =
    .answer (if i + 1 < count then some (chainNode (i + 1)) else none) := by
  rw [holdsChain_chainModel.chainLink_eq h]
  split
  · next hnext => rw [holdsChain_chainModel.definition?_eq hnext]
  · next hlast =>
    obtain rfl : i + 1 = count := Nat.le_antisymm h (Nat.le_of_not_lt hlast)
    rw [definition?_chainName_count]

end Model

end SchemaRefs
