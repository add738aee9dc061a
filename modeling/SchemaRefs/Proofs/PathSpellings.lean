import SchemaRefs.Proofs.Loading

/-!
# How paths are spelled

The path of a node is found by climbing from container to container, and a path is followed by
descending from child to child. Both agree on the nodes, but not on the spelling: a position in an
object stands for the property of its digits (`Document.ownStep`).

Main statement: the path of a node leads back to it, so that no two nodes share a path; and every
path that leads to a node is the node's own, step by step, up to positions in objects
(`paths_correspond_to_nodes`).
-/

namespace SchemaRefs

namespace Document

variable {doc : Document} {steps : List Step} {child id node : NodeId} {step : Step}

variable (doc) in
/-- The step as the child that it leads to would name it: a position in an object is the property of
its digits. -/
def ownStep (id : NodeId) : Step → Step
  | .key name => .key name
  | .index position =>
    if doc.isObject id then .key (Step.positionText position) else .index position

/-! ## One step -/

theorem ownStep_of_object (h : doc.isObject id = true) (step : Step) :
    doc.ownStep id step = .key step.text := by
  cases step with
  | key name => rfl
  | index position => exact if_pos h

theorem ownStep_of_not_object (h : doc.isObject id = false) (step : Step) :
    doc.ownStep id step = step := by
  cases step with
  | key name => rfl
  | index position => exact if_neg (Bool.eq_false_iff.mp h)

/-- The node that a step leads to names the step in its own way. -/
theorem step?_of_follow? (h : doc.follow? id step = some child) :
    doc.step? child = some (doc.ownStep id step) := by
  unfold follow? at h
  split at h
  · next props hv =>
    have hobject : doc.isObject id = true := by rw [isObject, hv]
    have hmem := Table.mem_of_get? h
    rw [← entries_of_object hv] at hmem
    rw [ownStep_of_object hobject, (container?_of_mem_entries hmem).2]
  · next items position hv =>
    have hobject : doc.isObject id = false := by rw [isObject, hv]
    have hitem : (doc.itemsAt id)[position]? = some child := by rwa [itemsAt, hv]
    rw [ownStep_of_not_object hobject, (container?_of_getElem?_itemsAt hitem).2]
  · cases h

theorem follow?_key (id : NodeId) (name : String) :
    doc.follow? id (.key name) = doc.prop? id name := by
  unfold follow? prop? propIn
  split
  · next props hv =>
    rw [show valueIn doc.nodes id = some (.object props) from hv]
    rfl
  · next hv => cases hv
  · next hno _ =>
    split
    · next props hv => exact absurd hv (hno props)
    · rfl

theorem stepsTo_of_follow? (h : doc.follow? id step = some child) :
    doc.stepsTo child = doc.stepsTo id ++ [doc.ownStep id step] :=
  stepsTo_of_container? (container?_of_follow? h).1 (step?_of_follow? h)

theorem lt_size_of_follow? (h : doc.follow? id step = some child) :
    child < doc.size :=
  lt_size_of_container? (container?_of_follow? h).1

/-! ## Many steps -/

variable (doc) in
/-- The second list spells the first one, which is followed from a node, in the way of the nodes
that are passed. -/
def Respells (id : NodeId) (steps own : List Step) : Prop :=
  own.length = steps.length ∧ ∀ (k : Nat) (step : Step), steps[k]? = some step →
    ∃ passed, doc.followAll? id (steps.take k) = some passed ∧
    own[k]? = some (doc.ownStep passed step)

theorem Respells.cons {next : NodeId} {rest own : List Step} (hf : doc.follow? id step = some next)
    (h : doc.Respells next rest own) :
    doc.Respells id (step :: rest) (doc.ownStep id step :: own) := by
  refine ⟨congrArg (· + 1) h.1, fun k later hk => ?_⟩
  cases k with
  | zero =>
    cases hk
    exact ⟨id, rfl, rfl⟩
  | succ k =>
    obtain ⟨passed, hpassed, hown⟩ := h.2 k later hk
    exact ⟨passed, by rw [List.take_succ_cons, followAll?, hf, Option.bind_some, hpassed], hown⟩

/-- Following steps adds their own spelling to the path of the start. -/
theorem stepsTo_of_followAll? (h : doc.followAll? id steps = some node) :
    ∃ own, doc.stepsTo node = doc.stepsTo id ++ own ∧ doc.Respells id steps own := by
  induction steps generalizing id with
  | nil =>
    cases h
    exact ⟨[], (List.append_nil _).symm, rfl, fun _ _ hk => by cases hk⟩
  | cons step rest ih =>
    obtain ⟨next, hf, hrest⟩ := Option.bind_eq_some_iff.mp h
    obtain ⟨own, hsteps, hown⟩ := ih hrest
    refine ⟨doc.ownStep id step :: own, ?_, hown.cons hf⟩
    rw [hsteps, stepsTo_of_follow? hf, List.append_assoc]
    rfl

theorem lt_size_of_followAll? (hid : id < doc.size)
    (h : doc.followAll? id steps = some node) : node < doc.size := by
  induction steps generalizing id with
  | nil =>
    cases h
    exact hid
  | cons step rest ih =>
    obtain ⟨next, hf, hrest⟩ := Option.bind_eq_some_iff.mp h
    exact ih (lt_size_of_follow? hf) hrest

theorem within_of_followAll? (h : doc.followAll? id steps = some node) :
    doc.Within id node := by
  induction steps generalizing id with
  | nil =>
    cases h
    exact .refl
  | cons step rest ih =>
    obtain ⟨next, hf, hrest⟩ := Option.bind_eq_some_iff.mp h
    exact (within_of_container? (container?_of_follow? hf).1).trans (ih hrest)

theorem root_lt_size (doc : Document) : root < doc.size := by
  have hlt := prop?_lt doc.prop?_definitions
  exact Nat.lt_trans hlt.1 hlt.2

theorem lt_size_of_nodeAt? {path : Path} (h : doc.nodeAt? path = some node) : node < doc.size :=
  lt_size_of_followAll? doc.root_lt_size h

/-- The path of every node leads back to it, and different nodes have different paths. A path that
leads to a node has as many steps as the node's own one, and each of them is the step of the node's
own path, except that a position taken in an object stands there as the property of its decimal
digits. -/
theorem paths_correspond_to_nodes (doc : Document) :
    (∀ node, node < doc.size → doc.nodeAt? (doc.pathOf node) = some node) ∧
    (∀ a b, a < doc.size → b < doc.size → doc.pathOf a = doc.pathOf b → a = b) ∧
    ∀ path node, doc.nodeAt? path = some node →
      node < doc.size ∧ (doc.pathOf node).length = path.length ∧
        ∀ k step, path.get? k = some step →
          ∃ passed, doc.nodeAt? ⟨path.steps.take k⟩ = some passed ∧
            (doc.pathOf node).get? k = some (doc.ownStep passed step) := by
  refine ⟨fun node => nodeAt?_pathOf, fun a b => pathOf_injective, fun path node h => ?_⟩
  obtain ⟨own, hsteps, hown⟩ := stepsTo_of_followAll? h
  rw [stepsTo_root, List.nil_append] at hsteps
  have hpath : doc.pathOf node = ⟨own⟩ := congrArg Path.mk hsteps
  rw [hpath]
  exact ⟨lt_size_of_nodeAt? h, hown⟩

/-- The document with an element named by a digit, and with a list of two keys. -/
def digitDocument : Document :=
  ofTree digitTree (by decide +kernel) 1 rfl

/-- A position among the elements stands for the element of that name, one in the list for
itself. -/
theorem digitDocument_spells_positions :
    digitDocument.nodeAt? ⟨[.key "definitions", .key "A", .key "elements", .index 1, .key "type"]⟩ =
      some 5 ∧
      (digitDocument.pathOf 5).length = 5 ∧ (digitDocument.pathOf 5).get? 3 = some (.key "1") ∧
      digitDocument.nodeAt? (digitDocument.pathOf 8) = some 8 ∧
      (digitDocument.pathOf 8).get? 3 = some (.index 1) := by
  obtain ⟨hback, _, hspelling⟩ := paths_correspond_to_nodes digitDocument
  have htype : digitDocument.nodeAt?
      ⟨[.key "definitions", .key "A", .key "elements", .index 1, .key "type"]⟩ =
        some 5 := by decide +kernel
  have hkey : digitDocument.nodeAt? ⟨[.key "definitions", .key "A", .key "keys", .index 1]⟩ =
      some 8 := by
    decide +kernel
  obtain ⟨_, hlength, hsteps⟩ := hspelling _ 5 htype
  obtain ⟨_, _, hsteps'⟩ := hspelling _ 8 hkey
  obtain ⟨elements, helements, hname⟩ := hsteps 3 (.index 1) rfl
  obtain ⟨keys, hkeys, hitem⟩ := hsteps' 3 (.index 1) rfl
  obtain rfl : 3 = elements := Option.some.inj (by rw [← helements]; decide +kernel)
  obtain rfl : 6 = keys := Option.some.inj (by rw [← hkeys]; decide +kernel)
  exact ⟨htype, hlength, hname.trans (by decide +kernel), hback 8 (by decide +kernel),
    hitem.trans (by decide +kernel)⟩

end Document

end SchemaRefs
