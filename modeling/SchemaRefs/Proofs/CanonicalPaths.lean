import SchemaRefs.Proofs.Walks

/-!
# The paths of nodes

The path of a node leads to it. Walking there is walking to its container and making one more step
(`walkTo?_step`), so what a walk along the path of a node finds is a function of the node. The walk
knows the path that it has gone (`walkTo?_spec`).
-/

namespace SchemaRefs

namespace Document

variable {doc : Document} {definition id node parent : NodeId} {path : Path} {step : Step}
  {name : String}

/-! ## Steps -/

theorem step?_root : doc.step? root = none := by
  obtain ⟨tree, _, hl⟩ := doc.nodes_layout
  obtain ⟨node, hn, _, hs⟩ := Json.layout_head 0 none none tree
  rw [step?, node?, ← Array.getElem?_toList, hl, root, hn]
  exact hs

theorem stepsTo_root : doc.stepsTo root = [] := by
  rw [stepsTo, step?_root]

theorem stepsTo_of_container? (hc : doc.container? id = some parent)
    (hs : doc.step? id = some step) : doc.stepsTo id = doc.stepsTo parent ++ [step] := by
  rw [stepsTo, hs]
  dsimp only
  split
  · next parent' hc' =>
    rw [hc] at hc'
    cases hc'
    rfl
  · next hc' =>
    rw [hc] at hc'
    cases hc'

theorem prop?_definitions : doc.prop? root "definitions" = some doc.definitions :=
  Option.eq_some_of_filter_eq_some doc.definitions_eq

theorem value?_definitions : ∃ props, doc.value? doc.definitions = some (.object props) := by
  have h := (Option.filter_eq_some_iff.mp doc.definitions_eq).2
  split at h
  · next props hv => exact ⟨props, hv⟩
  · cases h

theorem exists_name_of_isDefinition (hd : doc.isDefinition definition = true) :
    ∃ name, doc.step? definition = some (.key name) ∧ doc.definition? name = some definition := by
  have hc := isDefinition_iff.mp hd
  obtain ⟨step, value, hs, hv, hl⟩ := link_of_container? hc
  obtain ⟨props, hp⟩ := doc.value?_definitions
  rw [hp] at hv
  cases hv
  obtain ⟨⟨name, child⟩, hm, heq⟩ := List.mem_map.mp hl
  simp only [Prod.mk.injEq] at heq
  obtain ⟨rfl, rfl⟩ := heq
  exact ⟨name, hs, prop?_of_mem_entries (by rw [entries_of_object hp]; exact hm)⟩

theorem isDefinition_of_definition?
    (h : doc.definition? name = some definition) : doc.isDefinition definition = true :=
  isDefinition_iff.mpr (container?_of_prop? h).1

theorem stepsTo_definition
    (hd : doc.isDefinition definition = true) (hs : doc.step? definition = some (.key name)) :
    doc.stepsTo definition = [.key "definitions", .key name] := by
  have hr := container?_of_prop? doc.prop?_definitions
  rw [stepsTo_of_container? (isDefinition_iff.mp hd) hs, stepsTo_of_container? hr.1 hr.2,
    stepsTo_root]
  rfl

theorem isDefinition_of_pathDefinition
    (h : doc.pathDefinition path = .ok definition) : doc.isDefinition definition = true := by
  unfold pathDefinition at h
  split at h
  · cases h
  · split at h
    · cases h
    · next hd =>
      cases h
      exact isDefinition_of_definition? hd

/-! ## Steps below a definition -/

/-- The path of a node of a definition starts with the definition. -/
theorem stepsTo_of_within (hd : doc.isDefinition definition = true)
    (hs : doc.step? definition = some (.key name)) (hw : doc.Within definition node) :
    doc.stepsTo node = .key "definitions" :: .key name :: (doc.pathOf node).inner := by
  have hstart : ∃ inner, doc.stepsTo node = .key "definitions" :: .key name :: inner := by
    induction hw with
    | refl => exact ⟨[], stepsTo_definition hd hs⟩
    | step hc _ ih =>
      obtain ⟨inner, hi⟩ := ih
      obtain ⟨step, hstep, _⟩ := follow?_container hc
      exact ⟨inner ++ [step], by rw [stepsTo_of_container? hc hstep, hi]; rfl⟩
  obtain ⟨inner, hi⟩ := hstart
  rw [Path.inner, pathOf, hi]
  rfl

theorem pathDefinition_pathOf (h : doc.owner? node = some definition) :
    doc.pathDefinition (doc.pathOf node) = .ok definition := by
  obtain ⟨hd, hw⟩ := owner?_eq_some_iff.mp h
  obtain ⟨name, hs, hn⟩ := exists_name_of_isDefinition hd
  have hname : (doc.pathOf node).definitionName? = some name := by
    rw [pathOf, stepsTo_of_within hd hs hw]
    rfl
  rw [pathDefinition, hname]
  dsimp only
  rw [hn]

theorem exists_container? {value : Node} (h : doc.node? id = some value) (hne : id ≠ root) :
    ∃ parent, doc.container? id = some parent := by
  obtain ⟨tree, _, hl⟩ := doc.nodes_layout
  have hn := h
  rw [node?, ← Array.getElem?_toList, hl] at hn
  rcases Json.layout_container 0 none none id value tree hn with ⟨hzero, _⟩ | ⟨parent, hp, _⟩
  · exact absurd hzero hne
  · exact ⟨parent, by rw [container?, h, Option.bind_some, hp]⟩

theorem stepsTo_of_container?_none (h : doc.container? id = none) :
    doc.stepsTo id = [] := by
  rw [stepsTo]
  split
  · rfl
  · next step hs =>
    obtain ⟨value, hv, _⟩ := Option.bind_eq_some_iff.mp hs
    have hne : id ≠ root := by
      rintro rfl
      rw [step?_root] at hs
      cases hs
    obtain ⟨parent, hp⟩ := exists_container? hv hne
    rw [h] at hp
    cases hp

/-- No other node has the path of the definitions. -/
theorem eq_definitions_of_stepsTo (h : doc.stepsTo id = [.key "definitions"]) :
    id = doc.definitions := by
  cases hc : doc.container? id with
  | none =>
    rw [stepsTo_of_container?_none hc] at h
    cases h
  | some parent =>
    obtain ⟨step, hs, hf⟩ := follow?_container hc
    rw [stepsTo_of_container? hc hs] at h
    have h : doc.stepsTo parent ++ [step] = [] ++ [.key "definitions"] := h
    obtain ⟨hparent, hstep⟩ := List.append_inj' h rfl
    cases hstep
    have hroot : parent = root := by
      apply Classical.byContradiction
      intro hne
      obtain ⟨_, value, _, hv, _⟩ := link_of_container? hc
      obtain ⟨node, hn, _⟩ := Option.map_eq_some_iff.mp hv
      obtain ⟨above, ha⟩ := exists_container? hn hne
      obtain ⟨step, hs, _⟩ := follow?_container ha
      rw [stepsTo_of_container? ha hs] at hparent
      simp at hparent
    have hdefs := container?_of_prop? doc.prop?_definitions
    rw [hroot, follow?_of_container? hdefs.1 hdefs.2] at hf
    exact (Option.some.inj hf).symm

/-- A path that starts with the name of a definition leads into it. -/
theorem exists_definition_of_stepsTo {rest : List Step}
    (h : doc.stepsTo id = .key "definitions" :: .key name :: rest) :
    ∃ definition, doc.definition? name = some definition ∧ doc.Within definition id := by
  induction id using Nat.strongRecOn generalizing rest with
  | ind id ih =>
    cases hc : doc.container? id with
    | none =>
      rw [stepsTo_of_container?_none hc] at h
      cases h
    | some parent =>
      obtain ⟨step, hs, _⟩ := follow?_container hc
      rw [stepsTo_of_container? hc hs] at h
      rcases hp : doc.stepsTo parent with _ | ⟨first, _ | ⟨second, more⟩⟩
      · rw [hp] at h
        cases h
      · rw [hp] at h
        cases h
        have hd : doc.isDefinition id = true :=
          isDefinition_iff.mpr (eq_definitions_of_stepsTo hp ▸ hc)
        obtain ⟨name', hs', hn⟩ := exists_name_of_isDefinition hd
        rw [hs] at hs'
        cases hs'
        exact ⟨id, hn, .refl⟩
      · rw [hp] at h
        cases h
        obtain ⟨definition, hd, hw⟩ := ih parent (container?_lt hc) hp
        exact ⟨definition, hd, .step hc hw⟩

theorem owner?_of_pathDefinition (h : doc.pathDefinition (doc.pathOf node) = .ok definition) :
    doc.owner? node = some definition := by
  have hd := isDefinition_of_pathDefinition h
  unfold pathDefinition at h
  split at h
  · cases h
  · next name hname =>
    split at h
    · cases h
    · next definition' hdef =>
      cases h
      rw [pathOf] at hname
      unfold Path.definitionName? at hname
      split at hname
      · next name' rest heq =>
        cases hname
        obtain ⟨found, hfound, hw⟩ := exists_definition_of_stepsTo (congrArg Path.steps heq)
        rw [hdef] at hfound
        cases hfound
        exact owner?_eq_some_iff.mpr ⟨hd, hw⟩
      · cases hname

theorem inner_step (hd : doc.isDefinition definition = true) (hw : doc.Within definition parent)
    (hc : doc.container? node = some parent) (hs : doc.step? node = some step) :
    (doc.pathOf node).inner = (doc.pathOf parent).inner ++ [step] := by
  obtain ⟨name, hn, _⟩ := exists_name_of_isDefinition hd
  have h := stepsTo_of_container? hc hs
  rw [stepsTo_of_within hd hn (.step hc hw), stepsTo_of_within hd hn hw] at h
  simpa using h

theorem inner_definition (hd : doc.isDefinition definition = true) :
    (doc.pathOf definition).inner = [] := by
  obtain ⟨name, hs, _⟩ := exists_name_of_isDefinition hd
  rw [Path.inner, pathOf, stepsTo_definition hd hs]
  rfl

theorem followAll?_append {mid : NodeId} {steps : List Step}
    (h : doc.followAll? id steps = some mid) (more : List Step) :
    doc.followAll? id (steps ++ more) = doc.followAll? mid more := by
  induction steps generalizing id with
  | nil =>
    cases h
    rfl
  | cons step rest ih =>
    rw [followAll?] at h
    obtain ⟨next, hf, hr⟩ := Option.bind_eq_some_iff.mp h
    rw [List.cons_append, followAll?, hf, Option.bind_some, ih hr]

/-- The path of a node leads to it. -/
theorem nodeAt?_pathOf {node : Nat} (h : node < doc.size) :
    doc.nodeAt? (doc.pathOf node) = some node := by
  induction node using Nat.strongRecOn with
  | ind node ih =>
    by_cases hr : node = root
    · rw [hr, nodeAt?, pathOf, stepsTo_root]
      rfl
    · obtain ⟨parent, hc⟩ := exists_container? (Array.getElem?_eq_getElem h) hr
      obtain ⟨step, hs, hf⟩ := follow?_container hc
      have hlt := container?_lt hc
      have hp : doc.followAll? root (doc.stepsTo parent) = some parent :=
        ih parent hlt (Nat.lt_trans hlt h)
      rw [nodeAt?, pathOf, stepsTo_of_container? hc hs, followAll?_append hp, followAll?, hf]
      rfl

theorem pathOf_injective {a b : Nat} (ha : a < doc.size) (hb : b < doc.size)
    (h : doc.pathOf a = doc.pathOf b) :
    a = b := by
  have hn := nodeAt?_pathOf ha
  rw [h, nodeAt?_pathOf hb] at hn
  exact (Option.some.inj hn).symm

theorem pathOf_step (hc : doc.container? node = some parent)
    (hs : doc.step? node = some step) : doc.pathOf node = (doc.pathOf parent).push step := by
  rw [pathOf, pathOf, Path.push, stepsTo_of_container? hc hs]

/-! ## Paths into definitions -/

/-- A path into a definition starts with its name. -/
theorem steps_of_pathDefinition (h : doc.pathDefinition path = .ok definition) :
    ∃ name, path.steps = .key "definitions" :: .key name :: path.inner ∧
      doc.definition? name = some definition := by
  unfold pathDefinition at h
  split at h
  · cases h
  · next name hname =>
    split at h
    · cases h
    · next hd =>
      cases h
      unfold Path.definitionName? at hname
      split at hname
      · cases hname
        exact ⟨name, rfl, hd⟩
      · cases hname

theorem pathDefinition_push (h : doc.pathDefinition path = .ok definition) (step : Step) :
    doc.pathDefinition (path.push step) = .ok definition := by
  obtain ⟨name, hsteps, hd⟩ := steps_of_pathDefinition h
  have hname : (path.push step).definitionName? = some name := by
    rw [Path.push, hsteps]
    rfl
  rw [pathDefinition, hname]
  simp only [hd]

theorem inner_push (h : doc.pathDefinition path = .ok definition)
    (step : Step) : (path.push step).inner = path.inner ++ [step] := by
  obtain ⟨name, hsteps, _⟩ := steps_of_pathDefinition h
  rw [Path.inner, Path.push, hsteps]
  rfl

/-- A path into a definition leads where its inner steps lead from the definition. -/
theorem nodeAt?_of_pathDefinition (h : doc.pathDefinition path = .ok definition) :
    doc.nodeAt? path = doc.followAll? definition path.inner := by
  obtain ⟨name, hsteps, hd⟩ := steps_of_pathDefinition h
  have hroot := container?_of_prop? doc.prop?_definitions
  have hdef := container?_of_prop? hd
  rw [nodeAt?, hsteps, followAll?, follow?_of_container? hroot.1 hroot.2,
    Option.bind_some, followAll?, follow?_of_container? hdef.1 hdef.2, Option.bind_some]

end Document

/-! ## Walking to a node -/

namespace Walk

variable {doc : Document} {topology : Topology} {main : NodeId} {node : NodeId} {walk : Walk}

theorem advanceAll_append {path : Path} {xs ys : List Step} {mid : Walk}
    (h : advanceAll doc topology main path xs walk = .ok mid) :
    advanceAll doc topology main path (xs ++ ys) walk =
      advanceAll doc topology main path ys mid := by
  induction xs generalizing walk with
  | nil =>
    cases h
    rfl
  | cons step rest ih =>
    rw [List.cons_append, advanceAll]
    rw [advanceAll] at h
    split at h
    · cases h
    · next next hn => rw [ih h]

/-- The walk to a node does not depend on the path that errors would name. -/
theorem advanceAll_path {path path' : Path} {steps : List Step} {walk' : Walk}
    (h : advanceAll doc topology main path steps walk = .ok walk') :
    advanceAll doc topology main path' steps walk = .ok walk' := by
  induction steps generalizing walk with
  | nil => exact h
  | cons step rest ih =>
    rw [advanceAll] at h ⊢
    split at h
    · cases h
    · exact ih h

variable (doc topology main) in
/-- The walk along the path of a node of the definition. -/
def walkTo? (node : NodeId) : Option Walk :=
  (advanceAll doc topology main Path.root (doc.pathOf node).inner (start doc main)).toOption

theorem walkTo?_eq_some_iff (path : Path) :
    walkTo? doc topology main node = some walk ↔
      advanceAll doc topology main path (doc.pathOf node).inner (start doc main) = .ok walk := by
  unfold walkTo?
  constructor
  · intro h
    cases hw : advanceAll doc topology main Path.root (doc.pathOf node).inner (start doc main) with
    | error e => rw [hw] at h; cases h
    | ok walk' =>
      rw [hw] at h
      cases h
      exact advanceAll_path hw
  · intro h
    rw [advanceAll_path h]
    rfl

theorem walkTo?_definition (hd : doc.isDefinition main = true) :
    walkTo? doc topology main main = some (start doc main) := by
  rw [walkTo?, Document.inner_definition hd]
  rfl

theorem walkTo?_step (hd : doc.isDefinition main = true) {parent : NodeId} {step : Step}
    (hw : doc.Within main parent) (hc : doc.container? node = some parent)
    (hs : doc.step? node = some step) (hp : walkTo? doc topology main parent = some walk)
    (hn : walk.node = parent) :
    walkTo? doc topology main node = some (walk.advance doc topology main step node) := by
  have hp' := (walkTo?_eq_some_iff Path.root).mp hp
  rw [walkTo?, Document.inner_step hd hw hc hs, advanceAll_append hp', advanceAll, hn,
    Document.follow?_of_container? hc hs]
  rfl

theorem trail_start (hd : doc.isDefinition main = true) :
    (start doc main).trail = doc.pathOf main := by
  obtain ⟨name, hs, _⟩ := Document.exists_name_of_isDefinition hd
  rw [Document.pathOf, Document.stepsTo_definition hd hs]
  simp [start, Document.definitionName?, hd, hs, Path.definition, Step.key?]

variable (topology) in
/-- The walk to a node leads there, and knows the path of the node. -/
theorem walkTo?_spec (hd : doc.isDefinition main = true) (hw : doc.Within main node) :
    ∃ walk, walkTo? doc topology main node = some walk ∧ walk.node = node ∧
      walk.trail = doc.pathOf node := by
  induction hw with
  | refl => exact ⟨_, walkTo?_definition hd, rfl, trail_start hd⟩
  | @step node parent hc hw ih =>
    obtain ⟨walk, hp, hn, ht⟩ := ih
    obtain ⟨step, hs, _⟩ := Document.follow?_container hc
    refine ⟨_, walkTo?_step hd hw hc hs hp hn, rfl, ?_⟩
    rw [Document.pathOf_step hc hs, ← ht]
    rfl

end Walk

theorem Site.analyze_pathOf {doc : Document} {topology : Topology} {definition node : NodeId}
    (ho : doc.owner? node = some definition) {walk : Walk}
    (hw : Walk.walkTo? doc topology definition node = some walk) :
    Site.analyze doc topology (doc.pathOf node) =
      walk.finish doc definition (doc.pathOf node) := by
  unfold Site.analyze
  rw [Document.pathDefinition_pathOf ho]
  simp only [bind, Except.bind]
  rw [(Walk.walkTo?_eq_some_iff _).mp hw]

end SchemaRefs
