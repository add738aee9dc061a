import SchemaRefs.Proofs.Loading
import SchemaRefs.Proofs.ReferenceLists

/-!
# The listed paths

The paths that the search for references lists are those of different nodes (`Document.DistinctIn`).
What the search lists for a part of an object or an array lies in a subtree of its own, and subtrees
of different children have nothing in common, so that no path is listed twice
(`distinctIn_referencesBelow`).

Main statement: each listed path is that of a node below the start which looks like a reference,
none is listed twice, and every visit gives the path of the search back
(`listed_paths_canonical_and_distinct`).
-/

namespace SchemaRefs

namespace Document

variable {doc : Document}

/-! ## Paths of different nodes -/

variable (doc) in
/-- The paths are those of different nodes of a region. -/
structure DistinctIn (region : NodeId → Prop) (paths : List Path) : Prop where
  nodup : paths.Nodup
  located : ∀ path ∈ paths, ∃ node, node < doc.size ∧ region node ∧ path = doc.pathOf node

namespace DistinctIn

variable {r r' : NodeId → Prop} {xs ys : List Path}

theorem nil (r : NodeId → Prop) : doc.DistinctIn r [] :=
  ⟨List.nodup_nil, fun _ hp => by cases hp⟩

theorem singleton {node : NodeId} (hsize : node < doc.size) (hr : r node) :
    doc.DistinctIn r [doc.pathOf node] :=
  ⟨List.pairwise_singleton _ _, fun _ hp => ⟨node, hsize, hr, List.mem_singleton.mp hp⟩⟩

theorem mono (h : doc.DistinctIn r xs) (hr : ∀ node, r node → r' node) : doc.DistinctIn r' xs :=
  ⟨h.nodup, fun path hp => by
    obtain ⟨node, hsize, hn, heq⟩ := h.located path hp
    exact ⟨node, hsize, hr node hn, heq⟩⟩

theorem disjoint (h : doc.DistinctIn r xs) (h' : doc.DistinctIn r' ys)
    (hapart : ∀ node, r node → ¬ r' node) {path : Path} (hx : path ∈ xs) : path ∉ ys := by
  intro hy
  obtain ⟨node, hsize, hn, rfl⟩ := h.located path hx
  obtain ⟨node', hsize', hn', heq⟩ := h'.located _ hy
  cases pathOf_injective hsize hsize' heq
  exact hapart node hn hn'

theorem append (h : doc.DistinctIn r xs) (h' : doc.DistinctIn r' ys)
    (hapart : ∀ node, r node → ¬ r' node) :
    doc.DistinctIn (fun node => r node ∨ r' node) (xs ++ ys) := by
  refine ⟨List.nodup_append.mpr ⟨h.nodup, h'.nodup, fun path hx other hy heq => ?_⟩,
    fun path hp => ?_⟩
  · exact h.disjoint h' hapart hx (heq ▸ hy)
  · rcases List.mem_append.mp hp with hp | hp
    · exact (h.mono fun _ => .inl).located path hp
    · exact (h'.mono fun _ => .inr).located path hp

theorem flatMap {α : Type} {l : List α} {f : α → List Path} {region : α → NodeId → Prop}
    (h : ∀ a ∈ l, doc.DistinctIn (region a) (f a))
    (hapart : l.Pairwise fun a b => ∀ node, region a node → ¬ region b node) :
    doc.DistinctIn (fun node => ∃ a ∈ l, region a node) (l.flatMap f) := by
  induction l with
  | nil => exact nil _
  | cons a rest ih =>
    obtain ⟨hfirst, hrest⟩ := List.pairwise_cons.mp hapart
    rw [List.flatMap_cons]
    refine ((h a List.mem_cons_self).append (ih (fun b hb => h b (List.mem_cons_of_mem a hb)) hrest)
      fun node ha hb => ?_).mono fun node hnode => ?_
    · obtain ⟨b, hb, hnode⟩ := hb
      exact hfirst b hb node ha hnode
    · rcases hnode with ha | ⟨b, hb, hnode⟩
      · exact ⟨a, List.mem_cons_self, ha⟩
      · exact ⟨b, List.mem_cons_of_mem a hb, hnode⟩

end DistinctIn

/-! ## The parts of the search -/

theorem distinctIn_items {list : NodeId} {f : NodeId × Nat → List Path}
    (h : ∀ item position, (doc.itemsAt list)[position]? = some item →
      doc.DistinctIn (doc.Within item) (f (item, position))) :
    doc.DistinctIn (doc.Within list) ((doc.itemsAt list).zipIdx.flatMap f) := by
  have hapart : ((doc.itemsAt list).zipIdx.map Prod.fst).Pairwise doc.Apart := by
    rw [List.zipIdx_map_fst]
    exact pairwise_itemsAt list
  refine (DistinctIn.flatMap (fun pair hp => ?_)
    ((List.pairwise_map.mp hapart).imp fun hab node => hab.not_within)).mono fun node hnode => ?_
  · exact h pair.1 pair.2 (List.mk_mem_zipIdx_iff_getElem?.mp hp)
  · obtain ⟨pair, hp, hw⟩ := hnode
    exact (Within.refl.item (List.mk_mem_zipIdx_iff_getElem?.mp hp)).trans hw

section

variable {id : Nat} (hlater : ∀ later : Nat, id < later → later < doc.size →
  doc.DistinctIn (doc.Within later) (doc.referencesBelow later (doc.pathOf later)))
include hlater

theorem distinctIn_namePaths {item : Nat} (hlt : id < item) (hsize : item < doc.size) :
    doc.DistinctIn (doc.Within item) (doc.namePaths (doc.pathOf item) item) := by
  unfold namePaths
  split
  · exact .singleton hsize .refl
  · exact hlater item hlt hsize

theorem distinctIn_propertyPaths {key : String} {child : NodeId}
    (hprop : doc.prop? id key = some child) :
    doc.DistinctIn (fun node => key ≠ "ref" ∧ doc.Within child node)
      (doc.propertyPaths (doc.pathOf id) key child) := by
  have hlt := prop?_lt hprop
  unfold propertyPaths
  rw [← pathOf_prop? hprop]
  split
  · exact .nil _
  · next hskip =>
    have hkey : key ≠ "ref" := fun heq => hskip (by rw [heq]; rfl)
    suffices h : doc.DistinctIn (doc.Within child) _ from h.mono fun node hw => ⟨hkey, hw⟩
    split
    · split
      · exact .nil _
      · exact .singleton hlt.2 .refl
    · split
      · refine distinctIn_items fun item position hi => ?_
        have hitem := lt_of_mem_itemsAt (List.mem_of_getElem? hi)
        dsimp only
        rw [← pathOf_getElem?_itemsAt hi]
        exact distinctIn_namePaths hlater (Nat.lt_trans hlt.1 hitem.1) hitem.2
      · exact hlater child hlt.1 hlt.2

theorem distinctIn_decorationPaths {segment : Nat} (hlt : id < segment) (key : String) :
    doc.DistinctIn (fun node => ∃ expr, doc.prop? segment key = some expr ∧ doc.Within expr node)
      (doc.decorationPaths (doc.pathOf segment) segment key) := by
  unfold decorationPaths
  split
  · exact .nil _
  · next expr hexpr =>
    have hlt' := prop?_lt hexpr
    rw [← pathOf_prop? hexpr]
    exact (hlater expr (Nat.lt_trans hlt hlt'.1) hlt'.2).mono fun node hw => ⟨expr, hexpr, hw⟩

theorem distinctIn_decorations {segment : Nat} (hlt : id < segment) :
    doc.DistinctIn (doc.Within segment)
      (["args", "where"].flatMap (doc.decorationPaths (doc.pathOf segment) segment)) := by
  refine (DistinctIn.flatMap (fun key _ => distinctIn_decorationPaths hlater hlt key) ?_).mono
    fun node hnode => ?_
  · refine List.pairwise_pair.mpr fun node hargs hwhere => ?_
    obtain ⟨_, hargs, hna⟩ := hargs
    obtain ⟨_, hwhere, hnb⟩ := hwhere
    exact (apart_of_prop? hargs hwhere (by decide)).not_within hna hnb
  · obtain ⟨_, _, expr, hexpr, hw⟩ := hnode
    exact (Within.refl.prop hexpr).trans hw

/-- The object itself, and what the segments of its `ref` hold. -/
theorem distinctIn_heldPaths (hsize : id < doc.size) :
    doc.DistinctIn (fun node => node = id ∨ ∃ list, doc.prop? id "ref" = some list ∧
      doc.Within list node)
      (doc.heldPaths id (doc.pathOf id)) := by
  unfold heldPaths
  split
  · exact .nil _
  · next list href =>
    have hprop := Option.eq_some_of_filter_eq_some href
    have hlt := prop?_lt hprop
    have hself : doc.DistinctIn (· = id)
        (if (doc.itemsAt list).isEmpty then [] else [doc.pathOf id]) := by
      split
      · exact .nil _
      · exact .singleton hsize rfl
    refine (hself.append (distinctIn_items fun segment position hi => ?_) ?_).mono
      fun node hnode => hnode.imp_right fun hw => ⟨list, hprop, hw⟩
    · have hsegment := lt_of_mem_itemsAt (List.mem_of_getElem? hi)
      dsimp only
      rw [← pathOf_prop? hprop, ← pathOf_getElem?_itemsAt hi]
      exact distinctIn_decorations hlater (Nat.lt_trans hlt.1 hsegment.1)
    · rintro node rfl hw
      exact absurd hlt.1 (Nat.not_lt.mpr hw.le)

theorem distinctIn_properties {props : List (String × NodeId)}
    (hv : doc.value? id = some (.object props)) :
    doc.DistinctIn (fun node => ∃ key child, key ≠ "ref" ∧ doc.prop? id key = some child ∧
      doc.Within child node)
      (props.flatMap fun prop => doc.propertyPaths (doc.pathOf id) prop.1 prop.2) := by
  have hprop : ∀ prop ∈ props, doc.prop? id prop.1 = some prop.2 :=
    fun prop hmem => (prop?_of_object hv).mp hmem
  have hapart : props.Pairwise fun a b => a.1 ≠ b.1 ∧ doc.Apart a.2 b.2 := by
    rw [← entries_of_object hv]
    exact pairwise_entries id
  refine (DistinctIn.flatMap (fun prop hmem => distinctIn_propertyPaths hlater
    (hprop prop hmem)) ?_).mono
    fun node hnode => ?_
  · exact hapart.imp fun hab node hna hnb => hab.2.not_within hna.2 hnb.2
  · obtain ⟨prop, hmem, hkey, hw⟩ := hnode
    exact ⟨prop.1, prop.2, hkey, hprop prop hmem, hw⟩

end

/-- The search lists the paths of different nodes below its start. -/
theorem distinctIn_referencesBelow (id : NodeId) :
    doc.DistinctIn (doc.Within id) (doc.referencesBelow id (doc.pathOf id)) := by
  induction id using descending_induction doc with
  | step id hlater =>
    cases hv : doc.value? id with
    | none =>
      rw [referencesBelow_of_leaf (by simp [hv]) (by simp [hv])]
      exact .nil _
    | some value =>
      cases value with
      | array items =>
        rw [referencesBelow_of_array hv]
        have hitems : doc.itemsAt id = items := by rw [itemsAt, hv]
        rw [← hitems]
        refine distinctIn_items fun item position hi => ?_
        have hlt := lt_of_mem_itemsAt (List.mem_of_getElem? hi)
        dsimp only
        rw [← pathOf_getElem?_itemsAt hi]
        exact hlater item hlt.1 hlt.2
      | object props =>
        obtain ⟨_, hnode, _⟩ := node?_of_value? hv
        have hsize : id < doc.size := (Array.getElem?_eq_some_iff.mp hnode).1
        rw [referencesBelow_of_object hv]
        refine ((distinctIn_heldPaths hlater hsize).append
          (distinctIn_properties hlater hv) ?_).mono fun node hnode => ?_
        · rintro node (rfl | ⟨list, href, hw⟩) ⟨key, child, hkey, hprop, hw'⟩
          · exact absurd (prop?_lt hprop).1 (Nat.not_lt.mpr hw'.le)
          · exact (apart_of_prop? href hprop hkey.symm).not_within hw hw'
        · rcases hnode with (rfl | ⟨list, href, hw⟩) | ⟨key, child, _, hprop, hw⟩
          · exact .refl
          · exact (Within.refl.prop href).trans hw
          · exact (Within.refl.prop hprop).trans hw
      | _ =>
        rw [referencesBelow_of_leaf (by simp [hv]) (by simp [hv])]
        exact .nil _

/-! ## What is listed -/

variable (doc) in
/-- The node looks like a reference. -/
inductive LooksReferring (node : NodeId) : Prop where
  | path {props : List (String × NodeId)} {list : NodeId} {items : List NodeId} :
      doc.value? node = some (.object props) → ("ref", list) ∈ props →
      doc.value? list = some (.array items) → items ≠ [] → LooksReferring node
  | name {holder : NodeId} {key name : String} : key ∈ ["type", "target", "targetAspect"] →
      doc.prop? holder key = some node → doc.value? node = some (.string name) →
      isBuiltinType name = false → LooksReferring node
  | listed {holder list : NodeId} {key name : String} {items : List NodeId} :
      key ∈ ["includes", "excluding"] → doc.prop? holder key = some list →
      doc.value? list = some (.array items) → node ∈ items → doc.value? node = some (.string name) →
      LooksReferring node

theorem value?_of_string? {node : NodeId} {name : String} (h : doc.string? node = some name) :
    doc.value? node = some (.string name) := by
  unfold string? at h
  split at h
  · next hv => cases h; exact hv
  · cases h

/-- What the search takes down looks like a reference. -/
theorem Notes.looksReferring {node noted : NodeId} (h : doc.Notes node noted) :
    doc.LooksReferring noted := by
  cases h with
  | reference hr hne =>
    have hprop := Option.eq_some_of_filter_eq_some hr
    obtain ⟨props, hv⟩ := exists_object_of_prop? hprop
    obtain ⟨item, hitem⟩ := List.exists_mem_of_ne_nil _ hne
    exact .path hv ((prop?_of_object hv).mpr hprop) (value?_of_mem_itemsAt hitem) hne
  | name hprop hkey hs hb =>
    refine .name ?_ hprop (value?_of_string? hs) hb
    simpa [isNameProperty, or_assoc] using hkey
  | listed hprop hkey hi hs =>
    obtain ⟨name, hs⟩ := exists_string?_of_isString hs
    have hitem := List.mem_of_getElem? hi
    refine .listed ?_ hprop (value?_of_mem_itemsAt hitem) hitem (value?_of_string? hs)
    simpa [isNameList] using hkey

/-- Each listed path leads to a node below the start that looks like a reference, and is the path of
this node; no path is listed twice, and none is missing that the search takes down on its way.
Wherever it starts, a visit ends with the path it began with. -/
theorem listed_paths_canonical_and_distinct (doc : Document) (start : NodeId) :
    (∀ path ∈ doc.referencePaths start, ∃ node, doc.nodeAt? path = some node ∧
      doc.pathOf node = path ∧ doc.Within start node ∧ doc.LooksReferring node) ∧
    (doc.referencePaths start).Nodup ∧
    (∀ node noted, doc.Searches start node → doc.Notes node noted →
      doc.pathOf noted ∈ doc.referencePaths start) ∧
    ∀ id search, ((doc.visit id).run search).2.path = search.path := by
  refine ⟨fun path hp => ?_, ?_, fun node noted hs hn => ?_, fun id search => ?_⟩
  · obtain ⟨node, noted, hs, hn, rfl⟩ := mem_referencePaths_iff.mp hp
    exact ⟨noted, nodeAt?_pathOf hn.lt_size, rfl, hs.within.trans hn.within, hn.looksReferring⟩
  · rw [referencePaths_eq]
    exact (distinctIn_referencesBelow start).nodup
  · exact mem_referencePaths_iff.mpr ⟨node, noted, hs, hn, rfl⟩
  · rw [lists_visit id search]

/-- The element has a type of its own, and a value with a filtered segment that holds another
reference. -/
def filteredDocument : Document :=
  .ofDefinitions [("A", .object [
    ("includes", .array [.string "B"]),
    ("elements", .object [("x", .object [
      ("type", .string "T"),
      ("value", .object [("ref", .array [
        .object [("id", .string "b"), ("where",
          .array [.object [("ref", .array [.string "c"])]])]])])])])])]

/-- The element is searched for its type, its value and the filter of the value; the filtered
reference is found through three steps at once. -/
theorem filteredDocument_lists_once :
    (∀ noted ∈ [7, 8, 13], filteredDocument.pathOf noted ∈ filteredDocument.referencePaths 6) ∧
      (filteredDocument.referencePaths 6).Nodup ∧
      (∃ node, filteredDocument.nodeAt? (filteredDocument.pathOf 13) = some node ∧
        filteredDocument.Within 6 node ∧ filteredDocument.LooksReferring node) ∧
      ((filteredDocument.visit 6).run ⟨filteredDocument.pathOf 6, []⟩).2.path =
        filteredDocument.pathOf 6 := by
  obtain ⟨hshape, hnodup, hall, hrestored⟩ := listed_paths_canonical_and_distinct filteredDocument 6
  have helement : filteredDocument.prop? 6 "value" = some 8 := by decide +kernel
  have hlist : filteredDocument.refPath? 8 = some 9 := by decide +kernel
  have hwhere : filteredDocument.prop? 10 "where" = some 12 := by decide +kernel
  have hvalue : filteredDocument.Searches 6 8 :=
    .single (.property helement (by decide) (by decide +kernel) (by decide +kernel) (by decide))
  have hfilter : filteredDocument.Searches 6 13 :=
    (hvalue.tail (.decoration hlist
      (by decide +kernel : (filteredDocument.itemsAt 9)[0]? = some 10) (.inr rfl) hwhere)).tail
      (.item (by decide +kernel : (filteredDocument.itemsAt 12)[0]? = some 13))
  have hfiltered := hall 13 13 hfilter
    (.reference (by decide +kernel : filteredDocument.refPath? 13 = some 14) (by decide +kernel))
  have htype : filteredDocument.prop? 6 "type" = some 7 := by decide +kernel
  have hlisted : ∀ noted ∈ [7, 8, 13],
      filteredDocument.pathOf noted ∈ filteredDocument.referencePaths 6 := by
    simp only [List.forall_mem_cons]
    refine ⟨hall 6 7 .refl (.name htype (by decide) (by decide +kernel : _ = some "T")
      (by decide +kernel)), ?_, hfiltered, by simp⟩
    exact hall 8 8 hvalue (.reference hlist (by decide +kernel))
  obtain ⟨node, hnode, _, hwithin, hlooks⟩ := hshape _ hfiltered
  exact ⟨hlisted, hnodup, ⟨node, hnode, hwithin, hlooks⟩, hrestored 6 _⟩

end Document

end SchemaRefs
