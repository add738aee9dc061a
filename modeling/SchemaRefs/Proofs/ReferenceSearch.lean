import Mathlib.Data.List.Basic
import SchemaRefs.Document.References

/-!
# The search for references in closed form

The search keeps one path and extends and shortens it on its way. What it lists is a function of the
node and of the path at which it arrives there (`Document.referencesBelow`), and it leaves with the
path with which it came (`lists_visit`). Both hold of every part of the search, whatever it is put
together from (`Search.Lists`).
-/

namespace SchemaRefs

theorem attach_zipIdx_map {α : Type} (xs : List α) (start : Nat) :
    (xs.attach.zipIdx start).map (fun pair => (pair.1.val, pair.2)) = xs.zipIdx start := by
  conv => rhs; rw [← List.attach_map_subtype_val xs, List.zipIdx_map]
  rfl

/-! ## Computations that list paths -/

namespace Search

/-- The computation lists paths that depend on the current one only, and comes back to it. -/
def Lists (x : StateM Search Unit) (paths : Path → List Path) : Prop :=
  ∀ search, x.run search = ((), { search with found := search.found ++ paths search.path })

variable {x y : StateM Search Unit} {f g : Path → List Path}

theorem lists_pure : Lists (pure ()) fun _ => [] := by
  intro search
  rw [List.append_nil]
  rfl

theorem Lists.congr (h : Lists x f) (heq : ∀ path, f path = g path) : Lists x g :=
  funext heq ▸ h

theorem lists_note : Lists note fun path => [path] :=
  fun _ => rfl

variable (f g) in
theorem lists_seq (hx : Lists x f) (hy : Lists y g) :
    Lists (x *> y) fun path => f path ++ g path := by
  intro search
  change (x.run search >>= fun result => y.run result.2) = _
  rw [hx search]
  change y.run _ = _
  rw [hy, List.append_assoc]

theorem pop_push (path : Path) (step : Step) : (path.push step).pop.1 = path := by
  rw [Path.pop, Path.push, List.dropLast_concat]

theorem Lists.below (hx : Lists x f) (step : Step) :
    Lists (Search.below step x) fun path => f (path.push step) := by
  intro search
  change (x.run { search with path := search.path.push step } >>= fun result =>
    (pure ((), { result.2 with path := result.2.path.pop.1 }) : Id (Unit × Search))) = _
  rw [hx]
  change ((), _) = _
  rw [pop_push]

theorem lists_forM {α : Type} {xs : List α} {visit : α → StateM Search Unit}
    (paths : α → Path → List Path) (h : ∀ a ∈ xs, Lists (visit a) (paths a)) :
    Lists (xs.forM visit) fun path => xs.flatMap (paths · path) := by
  induction xs with
  | nil => exact lists_pure
  | cons a rest ih =>
    exact lists_seq _ _ (h a List.mem_cons_self) (ih fun b hb => h b (List.mem_cons_of_mem a hb))

theorem Lists.ite {c : Prop} [Decidable c] (hx : Lists x f) (hy : Lists y g) :
    Lists (if c then x else y) fun path => if c then f path else g path := by
  by_cases hc : c
  · simpa only [if_pos hc] using hx
  · simpa only [if_neg hc] using hy

end Search

namespace Document

open Search

variable (doc : Document)

/-! ## What is listed -/

/-- The paths of the references below the node at `path`. -/
def referencesBelow (id : NodeId) (path : Path) : List Path :=
  match _h : doc.value? id with
  | some (.array items) =>
    items.attach.zipIdx.flatMap fun (⟨item, _hi⟩, position) =>
      referencesBelow item (path.push (.index position))
  | some (.object props) =>
    let held := match _hr : doc.refPath? id with
      | none => []
      | some refPath =>
        -- filters and arguments of segments hold references of their own
        (if (doc.itemsAt refPath).isEmpty then [] else [path]) ++
          (doc.itemsAt refPath).attach.zipIdx.flatMap fun (⟨segment, _hi⟩, position) =>
            ["args", "where"].flatMap fun key =>
              match _hs : doc.prop? segment key with
              | none => []
              | some expr =>
                referencesBelow expr
                  (((path.push (.key "ref")).push (.index position)).push (.key key))
    held ++ props.attach.flatMap fun ⟨(key, child), _hp⟩ =>
      if key == "ref" || isDollarName key then []
      else
        let path := path.push (.key key)
        if isNameProperty key && doc.isString child then
          if (doc.string? child).any isBuiltinType then [] else [path]
        else if isNameList key then
          (doc.itemsAt child).attach.zipIdx.flatMap fun (⟨item, _hi⟩, position) =>
            let path := path.push (.index position)
            if doc.isString item then [path] else referencesBelow item path
        else referencesBelow child path
  | _ => []
termination_by doc.size - id
decreasing_by
  · have := lt_of_mem_children _h _hi
    omega
  · have h1 := prop?_lt (Option.eq_some_of_filter_eq_some _hr)
    have h2 := lt_of_mem_itemsAt _hi
    have h3 := prop?_lt _hs
    omega
  · have h1 := lt_of_mem_children _h (List.mem_map.2 ⟨_, _hp, rfl⟩)
    have h2 := lt_of_mem_itemsAt _hi
    omega
  · have := lt_of_mem_children _h (List.mem_map.2 ⟨_, _hp, rfl⟩)
    omega

/-- What is listed for the filter or the arguments of a segment at a path. -/
def decorationPaths (path : Path) (segment : NodeId) (key : String) : List Path :=
  match doc.prop? segment key with
  | none => []
  | some expr => doc.referencesBelow expr (path.push (.key key))

/-- What is listed for the `ref` of an object at a path. -/
def heldPaths (id : NodeId) (path : Path) : List Path :=
  match doc.refPath? id with
  | none => []
  | some list =>
    (if (doc.itemsAt list).isEmpty then [] else [path]) ++ (doc.itemsAt list).zipIdx.flatMap
      fun (segment, position) =>
      ["args", "where"].flatMap (doc.decorationPaths
        ((path.push (.key "ref")).push (.index position)) segment)

/-- What is listed for an item of a list of names at a path. -/
def namePaths (path : Path) (item : NodeId) : List Path :=
  if doc.isString item then [path] else doc.referencesBelow item path

/-- What is listed for a property of an object at a path. -/
def propertyPaths (path : Path) (key : String) (child : NodeId) : List Path :=
  if key == "ref" || isDollarName key then []
  else if isNameProperty key && doc.isString child then
    if (doc.string? child).any isBuiltinType then [] else [path.push (.key key)]
  else if isNameList key then
    (doc.itemsAt child).zipIdx.flatMap fun (item, position) =>
      doc.namePaths ((path.push (.key key)).push (.index position)) item
  else doc.referencesBelow child (path.push (.key key))

variable {doc}

theorem flatMap_attach_zipIdx {α β : Type} (xs : List α) (f : α → Nat → List β) :
    (xs.attach.zipIdx.flatMap fun pair => f pair.1.val pair.2) = xs.zipIdx.flatMap fun pair =>
      f pair.1 pair.2 := by
  rw [← attach_zipIdx_map xs 0, List.flatMap_map]

theorem referencesBelow_of_array {id : NodeId} {items : List NodeId}
    (hv : doc.value? id = some (.array items)) (path : Path) : doc.referencesBelow id path =
      items.zipIdx.flatMap fun pair => doc.referencesBelow pair.1 (path.push (.index pair.2)) := by
  rw [referencesBelow]
  split
  · next items' hv' =>
    cases hv.symm.trans hv'
    exact flatMap_attach_zipIdx items fun item position =>
      doc.referencesBelow item (path.push (.index position))
  · next props hv' => cases hv.symm.trans hv'
  · next hno _ => exact absurd hv (hno items)

theorem referencesBelow_of_object {id : NodeId} {props : List (String × NodeId)}
    (hv : doc.value? id = some (.object props)) (path : Path) : doc.referencesBelow id path =
      doc.heldPaths id path ++ props.flatMap fun prop => doc.propertyPaths path prop.1 prop.2 := by
  rw [referencesBelow]
  split
  · next items hv' => cases hv.symm.trans hv'
  · next props' hv' =>
    cases hv.symm.trans hv'
    dsimp only
    congr 1
    · unfold heldPaths
      split
      · next hr => rw [hr]
      · next list hr =>
        rw [hr]
        dsimp only
        congr 1
        refine (List.flatMap_congr fun pair _ => List.flatMap_congr fun key _ => ?_).trans
          (flatMap_attach_zipIdx (doc.itemsAt list) fun segment position =>
            ["args", "where"].flatMap
            (doc.decorationPaths ((path.push (.key "ref")).push (.index position)) segment))
        unfold decorationPaths
        split
        · next hs => rw [hs]
        · next expr hs => rw [hs]
    · conv => rhs; rw [← List.attach_map_subtype_val props, List.flatMap_map]
      refine List.flatMap_congr fun prop _ => ?_
      obtain ⟨⟨key, child⟩, hp⟩ := prop
      dsimp only
      unfold propertyPaths
      rw [flatMap_attach_zipIdx (doc.itemsAt child) fun item position => if doc.isString item then
        [(path.push (.key key)).push (.index position)] else
          doc.referencesBelow item ((path.push (.key key)).push (.index position))]
      rfl
  · next hobj => exact absurd hv (hobj props)

theorem referencesBelow_of_leaf {id : NodeId}
    (harray : ∀ items, doc.value? id ≠ some (.array items))
    (hobject : ∀ props, doc.value? id ≠ some (.object props)) (path : Path) :
    doc.referencesBelow id path = [] := by
  rw [referencesBelow]
  split
  · next items hv => exact absurd hv (harray items)
  · next props hv => exact absurd hv (hobject props)
  · rfl

/-! ## The search lists it -/

theorem lists_noteName (child : NodeId) : Lists (doc.noteName child)
    fun path => if (doc.string? child).any isBuiltinType then [] else [path] :=
  lists_pure.ite lists_note

section

variable {id : Nat}
  (hlater : ∀ later : Nat, id < later → later < doc.size →
    Lists (doc.visit later) (doc.referencesBelow later))
include hlater

theorem lists_items {list : Nat} (hlt : id < list) : Lists
    ((doc.itemsAt list).attach.zipIdx.forM fun pair =>
      below (.index pair.2) (if doc.isString pair.1.val then note else doc.visit pair.1.val))
    fun path => (doc.itemsAt list).zipIdx.flatMap fun pair =>
      doc.namePaths (path.push (.index pair.2)) pair.1 := by
  refine (lists_forM (fun pair path => doc.namePaths (path.push (.index pair.2)) pair.1.val)
    fun pair _ => ?_).congr fun path => flatMap_attach_zipIdx (doc.itemsAt list)
      fun item position => doc.namePaths (path.push (.index position)) item
  have hitem := lt_of_mem_itemsAt pair.1.property
  exact Lists.below (lists_note.ite (hlater pair.1.val (Nat.lt_trans hlt hitem.1) hitem.2))
    (.index pair.2)

theorem lists_property {child : Nat} (hlt : id < child) (hsize : child < doc.size) (key : String) :
    Lists
    (if key == "ref" || isDollarName key then pure ()
    else below (.key key) <|
      if isNameProperty key && doc.isString child then doc.noteName child
      else if isNameList key then
        (doc.itemsAt child).attach.zipIdx.forM fun pair =>
          below (.index pair.2) (if doc.isString pair.1.val then note else doc.visit pair.1.val)
      else doc.visit child)
    fun path => doc.propertyPaths path key child :=
  lists_pure.ite (Lists.below (Lists.ite (lists_noteName child)
    ((lists_items hlater hlt).ite (hlater child hlt hsize))) (.key key))

/-- The filter or the arguments of a segment are searched three steps below the holder of the
reference. -/
theorem lists_decoration {segment expr : Nat} {key : String} (hlt : id < segment)
    (hs : doc.prop? segment key = some expr) (position : Nat) :
    Lists (below (.key "ref") (below (.index position) (below (.key key) (doc.visit expr))))
      fun path => doc.decorationPaths ((path.push (.key "ref")).push (.index position))
        segment key := by
  have hexpr := prop?_lt hs
  refine ((((hlater expr (Nat.lt_trans hlt hexpr.1) hexpr.2).below _).below _).below _).congr
    fun path => ?_
  rw [decorationPaths, hs]

end

/-- The search from a node lists what is below it, and comes back to the path with which it came. -/
theorem lists_visit (id : Nat) : Lists (doc.visit id) (doc.referencesBelow id) := by
  induction hn : doc.size - id using Nat.strongRecOn generalizing id with
  | ind n ih =>
    have hlater : ∀ later : Nat, id < later → later < doc.size →
        Lists (doc.visit later) (doc.referencesBelow later) :=
      fun later hlt hsize => ih (doc.size - later) (by omega) later rfl
    rw [visit]
    split
    · next items hv =>
      refine (lists_forM (fun pair path => doc.referencesBelow pair.1.val
        (path.push (.index pair.2)))
        fun pair _ => ?_).congr fun path => ?_
      · have hlt := lt_of_mem_children hv pair.1.property
        exact (hlater pair.1.val hlt.1 hlt.2).below _
      · rw [referencesBelow_of_array hv]
        exact flatMap_attach_zipIdx items fun item position =>
          doc.referencesBelow item (path.push (.index position))
    · next props hv =>
      refine (lists_seq (doc.heldPaths id) _ ?_
        (lists_forM (fun prop path => doc.propertyPaths path prop.1.1 prop.1.2)
          fun prop _ => ?_)).congr fun path => ?_
      · split
        · next hr => exact lists_pure.congr fun path => by rw [heldPaths, hr]
        · next list hr =>
          have hlist := prop?_lt (Option.eq_some_of_filter_eq_some hr)
          refine (lists_seq (fun path => if (doc.itemsAt list).isEmpty then [] else [path]) _
            (lists_pure.ite lists_note) (lists_forM
              (fun pair path => ["args", "where"].flatMap
                (doc.decorationPaths ((path.push (.key "ref")).push (.index pair.2)) pair.1.val))
              fun pair _ => lists_forM (fun key path =>
                doc.decorationPaths ((path.push (.key "ref")).push (.index pair.2)) pair.1.val key)
                fun key _ => ?_)).congr fun path => ?_
          · have hsegment := lt_of_mem_itemsAt pair.1.property
            split
            · next hs => exact lists_pure.congr fun path => by rw [decorationPaths, hs]
            · next expr hs =>
                exact lists_decoration hlater (Nat.lt_trans hlist.1 hsegment.1) hs pair.2
          · rw [heldPaths, hr]
            exact congrArg _ (flatMap_attach_zipIdx (doc.itemsAt list) fun segment position =>
              ["args", "where"].flatMap
                (doc.decorationPaths ((path.push (.key "ref")).push (.index position)) segment))
      · have hchild := lt_of_mem_children hv (List.mem_map.mpr ⟨_, prop.property, rfl⟩)
        exact lists_property hlater hchild.1 hchild.2 prop.1.1
      · rw [referencesBelow_of_object hv]
        refine congrArg _ ?_
        conv => rhs; rw [← List.attach_map_subtype_val props, List.flatMap_map]
    · next harray hobject =>
      exact lists_pure.congr fun path => (referencesBelow_of_leaf harray hobject path).symm

theorem referencePaths_eq (id : NodeId) :
    doc.referencePaths id = doc.referencesBelow id (doc.pathOf id) := by
  rw [referencePaths, lists_visit id]
  rfl

end Document

end SchemaRefs
