import SchemaRefs.Proofs.PathSpellings

/-!
# Owners

The owner of a node is the first definition that a walk from container to container comes to
(`Document.climb`). The walk goes as many steps as the path of its start is long, and so it ends,
also for a handle without node.

What a definition owns can be told in three ways (`owned_iff_contained`): by the walk, by the start
of the path, and by the interval of handles that belongs to the definition
(`owner?_eq_some_iff_path`, `owner?_eq_some_iff_interval`). Different definitions have disjoint
intervals, and nothing is without owner but the root, the `definitions` and what lies outside of
these.
-/

namespace SchemaRefs

namespace Document

variable {doc : Document} {node : NodeId}

/-! ## The walk from container to container -/

variable (doc) in
/-- The handle that is reached after a number of steps from container to container. -/
def climb : (steps : Nat) → NodeId → Option NodeId
  | 0, handle => some handle
  | steps + 1, handle => (doc.container? handle).bind (climb steps)

/-- The walk has one step for each step of the path, and then ends. -/
theorem isSome_climb_iff {steps : Nat} {handle : NodeId} :
    (doc.climb steps handle).isSome = true ↔ steps ≤ (doc.pathOf handle).length := by
  induction steps generalizing handle with
  | zero => exact ⟨fun _ => Nat.zero_le _, fun _ => rfl⟩
  | succ steps ih =>
    rw [climb]
    cases hc : doc.container? handle with
    | none => simp [Path.length, pathOf, stepsTo_of_container?_none hc]
    | some parent =>
      obtain ⟨step, hs, _⟩ := follow?_container hc
      rw [Option.bind_some, ih, pathOf_step hc hs, Path.push, Path.length, Path.length,
        List.length_append]
      exact Nat.succ_le_succ_iff.symm

theorem within_iff_climb {top : NodeId} :
    doc.Within top node ↔ ∃ steps, doc.climb steps node = some top := by
  constructor
  · intro h
    induction h with
    | refl => exact ⟨0, rfl⟩
    | step hc _ ih =>
      obtain ⟨steps, hsteps⟩ := ih
      exact ⟨steps + 1, by rw [climb, hc, Option.bind_some, hsteps]⟩
  · rintro ⟨steps, hsteps⟩
    induction steps generalizing node with
    | zero =>
      cases hsteps
      exact .refl
    | succ steps ih =>
      obtain ⟨parent, hc, hrest⟩ := Option.bind_eq_some_iff.mp hsteps
      exact .step hc (ih hrest)

/-! ## Owners by path -/

theorem startsWith_definition_iff {path : Path} {name : String} :
    path.startsWith (Path.definition name) = true ↔
      ∃ rest, path.steps = .key "definitions" :: .key name :: rest := by
  rw [Path.startsWith, List.isPrefixOf_iff_prefix]
  exact ⟨fun ⟨rest, h⟩ => ⟨rest, h.symm⟩, fun ⟨rest, h⟩ => ⟨rest, h.symm⟩⟩

section

variable {name : String} {definition : NodeId} (hd : doc.definition? name = some definition)
include hd

/-- A definition owns the nodes whose paths start with it. -/
theorem owner?_eq_some_iff_path :
    doc.owner? node = some definition ↔
      (doc.pathOf node).startsWith (Path.definition name) = true := by
  have hdef := isDefinition_of_definition? hd
  rw [startsWith_definition_iff, owner?_eq_some_iff]
  constructor
  · rintro ⟨_, hw⟩
    exact ⟨_, stepsTo_of_within hdef (container?_of_prop? hd).2 hw⟩
  · rintro ⟨rest, hsteps⟩
    obtain ⟨found, hfound, hw⟩ := exists_definition_of_stepsTo hsteps
    obtain rfl : definition = found := Option.some.inj (hd.symm.trans hfound)
    exact ⟨hdef, hw⟩

end

/-! ## Owners by handle -/

/-- What lies below a node has the next handles, as many as its value has nodes. -/
theorem within_iff_interval {top node : Nat} (h : top < doc.size) :
    doc.Within top node ↔ top ≤ node ∧ node < top + (doc.toJson top).size := by
  obtain ⟨value, hv⟩ := exists_holds h
  rw [hv.within_iff, toJson_of_holds value hv]

theorem lt_size_of_isDefinition {definition : NodeId} (h : doc.isDefinition definition = true) :
    definition < doc.size :=
  lt_size_of_container? (isDefinition_iff.mp h)

theorem owner?_eq_some_iff_interval {definition : NodeId} (h : doc.isDefinition definition = true) :
    doc.owner? node = some definition ↔
      definition ≤ node ∧ node < definition + (doc.toJson definition).size := by
  rw [owner?_eq_some_iff, within_iff_interval (lt_size_of_isDefinition h)]
  exact and_iff_right h

/-- One of two definitions comes before the other, with all that is below it. -/
theorem disjoint_intervals {a b : Nat} (ha : doc.isDefinition a = true)
    (hb : doc.isDefinition b = true) (hne : a ≠ b) :
    a + (doc.toJson a).size ≤ b ∨ b + (doc.toJson b).size ≤ a := by
  have hab : ¬ (a ≤ b ∧ b < a + (doc.toJson a).size) := fun h =>
    hne (eq_of_within_of_isDefinition ha hb
      ((within_iff_interval (lt_size_of_isDefinition ha)).mpr h))
  have hba : ¬ (b ≤ a ∧ a < b + (doc.toJson b).size) := fun h =>
    hne (eq_of_within_of_isDefinition hb ha
      ((within_iff_interval (lt_size_of_isDefinition hb)).mpr h)).symm
  omega

/-! ## Nodes without owner -/

/-- What lies within the definitions lies within one of them. -/
theorem eq_or_within_definition (h : doc.Within doc.definitions node) :
    node = doc.definitions ∨ ∃ definition, doc.isDefinition definition = true ∧
    doc.Within definition node := by
  induction h with
  | refl => exact .inl rfl
  | @step node parent hc _ ih =>
    rcases ih with rfl | ⟨definition, hd, hw⟩
    · exact .inr ⟨node, isDefinition_iff.mpr hc, .refl⟩
    · exact .inr ⟨definition, hd, .step hc hw⟩

theorem owner?_root : doc.owner? root = none := by
  refine Option.eq_none_iff_forall_ne_some.mpr fun definition ho => ?_
  obtain ⟨hd, hw⟩ := owner?_eq_some_iff.mp ho
  exact absurd (Nat.lt_of_lt_of_le (container?_lt (isDefinition_iff.mp hd)) hw.le)
    (Nat.not_lt_zero _)

theorem owner?_definitions : doc.owner? doc.definitions = none := by
  refine Option.eq_none_iff_forall_ne_some.mpr fun definition ho => ?_
  obtain ⟨hd, hw⟩ := owner?_eq_some_iff.mp ho
  exact absurd (container?_lt (isDefinition_iff.mp hd)) (Nat.not_lt.mpr hw.le)

theorem owner?_eq_none_iff :
    doc.owner? node = none ↔ node = root ∨ node = doc.definitions ∨
    ¬ doc.Within doc.definitions node := by
  constructor
  · intro ho
    by_cases hw : doc.Within doc.definitions node
    · rcases eq_or_within_definition hw with hdefs | ⟨definition, hd, hin⟩
      · exact .inr (.inl hdefs)
      · rw [owner?_eq_some_iff.mpr ⟨hd, hin⟩] at ho
        cases ho
    · exact .inr (.inr hw)
  · rintro (rfl | rfl | hout)
    · exact owner?_root
    · exact owner?_definitions
    · refine Option.eq_none_iff_forall_ne_some.mpr fun definition ho => hout ?_
      obtain ⟨hd, hw⟩ := owner?_eq_some_iff.mp ho
      exact (within_of_container? (isDefinition_iff.mp hd)).trans hw

/-- A definition owns the nodes whose paths start with its name, which are the nodes with handles in
the interval from its own handle on that is as long as its value is large. The intervals of
different definitions are disjoint. Without owner are the root, the `definitions`, and all handles
outside of these. The owner is the definition that a walk from container to container comes to, and
for every handle this walk makes as many steps as the path of the handle has, and no more. -/
theorem owned_iff_contained (doc : Document) :
    (∀ name definition node, doc.definition? name = some definition →
      (doc.owner? node = some definition ↔
        (doc.pathOf node).startsWith (Path.definition name) = true) ∧
      (doc.owner? node = some definition ↔
        definition ≤ node ∧ node < definition + (doc.toJson definition).size)) ∧
    (∀ name name' a b, doc.definition? name = some a → doc.definition? name' = some b → a ≠ b →
      a + (doc.toJson a).size ≤ b ∨ b + (doc.toJson b).size ≤ a) ∧
    (∀ handle, doc.owner? handle = none ↔
      handle = root ∨ handle = doc.definitions ∨ ¬ doc.Within doc.definitions handle) ∧
    ∀ handle, (∀ definition, doc.owner? handle = some definition ↔
        doc.isDefinition definition = true ∧ ∃ steps, doc.climb steps handle = some definition) ∧
      ∀ steps, (doc.climb steps handle).isSome = true ↔ steps ≤ (doc.pathOf handle).length := by
  refine ⟨fun name definition node hd => ⟨owner?_eq_some_iff_path hd, ?_⟩,
    fun name name' a b ha hb hne => ?_, fun handle => owner?_eq_none_iff,
    fun handle => ⟨fun definition => ?_, fun steps => isSome_climb_iff⟩⟩
  · exact owner?_eq_some_iff_interval (isDefinition_of_definition? hd)
  · exact disjoint_intervals (isDefinition_of_definition? ha) (isDefinition_of_definition? hb) hne
  · rw [owner?_eq_some_iff, within_iff_climb]

/-- The first definition has a member named `definitions` with an object of its own, the second one
is empty; the property after the definitions has the same name as one of them. -/
def nestedTree : Json :=
  .object [
    ("definitions", .object [
      ("A", .object [("definitions", .object [("B", .object [])])]),
      ("B", .object [])]),
    ("B", .null)]

def nestedDocument : Document :=
  ofTree nestedTree (by decide +kernel) 1 rfl

/-- The inner `B` belongs to the first definition. The last node and a handle without node have no
owner. -/
theorem nestedDocument_owners :
    nestedDocument.definition? "A" = some 2 ∧ nestedDocument.definition? "B" = some 5 ∧
      (∀ node, nestedDocument.owner? node = some 2 ↔ 2 ≤ node ∧ node < 5) ∧
      (nestedDocument.pathOf 4).startsWith (Path.definition "A") = true ∧
      nestedDocument.owner? 6 = none ∧ nestedDocument.climb 1 4294967295 = none := by
  have ha : nestedDocument.definition? "A" = some 2 := by decide +kernel
  have hb : nestedDocument.definition? "B" = some 5 := by decide +kernel
  have hsize : (nestedDocument.toJson 2).size = 3 := by decide +kernel
  obtain ⟨howned, _, hnone, hwalk⟩ := owned_iff_contained nestedDocument
  have hinterval : ∀ node, nestedDocument.owner? node = some 2 ↔ 2 ≤ node ∧ node < 5 := by
    intro node
    have h := (howned "A" 2 node ha).2
    rwa [hsize] at h
  refine ⟨ha, hb, hinterval, (howned "A" 2 4 ha).1.mp ((hinterval 4).mpr (by decide)), ?_, ?_⟩
  · refine (hnone 6).mpr (.inr (.inr fun hw => ?_))
    have hdefs : nestedDocument.definitions < nestedDocument.size := by decide +kernel
    exact absurd ((within_iff_interval hdefs).mp hw) (by decide +kernel)
  · refine Option.not_isSome_iff_eq_none.mp fun hsome => ?_
    exact absurd (((hwalk 4294967295).2 1).mp hsome) (by decide +kernel)

end Document

end SchemaRefs
