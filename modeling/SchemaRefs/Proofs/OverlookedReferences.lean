import SchemaRefs.Proofs.ReferenceLists
import SchemaRefs.Proofs.SegmentPaths
import SchemaRefs.Proofs.ValidWalks

/-!
# References that are not listed

The search for references goes by the names of properties, whatever the properties mean where they
stand. It passes over what lies below a property named `ref`, the filters and arguments of segments
apart, and below an `includes` or `excluding` that is no list; members can have these names too. And
it takes names of built-in types for no references, even where a definition has that name.

Main statement: of the references that can be resolved, exactly those are not listed
(`lists_resolved_unless_overlooked`).
-/

namespace SchemaRefs

namespace Document

variable {doc : Document} {child holder node top value : NodeId} {key : String}

/-! ## What is overlooked -/

variable (doc) in
/-- The node lies within a filter or an argument of one of the segments of a list. -/
def Decorates (list node : NodeId) : Prop :=
  ∃ (position : Nat) (segment : NodeId) (key : String) (child : NodeId),
    (doc.itemsAt list)[position]? = some segment ∧ (key = "args" ∨ key = "where") ∧
      doc.prop? segment key = some child ∧ doc.Within child node

variable (doc) in
/-- The search does not go by a property towards a node below its value. -/
inductive Bars (key : String) (value node : NodeId) : Prop where
  | dollar : isDollarName key = true → Bars key value node
  | segments : key = "ref" → ¬ doc.Decorates value node → Bars key value node
  | names : isNameList key = true → doc.isArray value = false → Bars key value node

variable (doc) in
/-- A property bars the way to the node. -/
def Barred (top node : NodeId) : Prop :=
  ∃ outer key value, doc.Within top outer ∧ doc.prop? outer key = some value ∧
    doc.Within value node ∧ doc.Bars key value node

variable (doc) in
/-- The node is the value of a property for a name, or an item of one for a list of names. -/
inductive InNamePlace (top node : NodeId) : Prop where
  | value {holder : NodeId} {key : String} : doc.Within top holder →
      doc.prop? holder key = some node → isNameProperty key = true → InNamePlace top node
  | item {holder list : NodeId} {key : String} {position : Nat} : doc.Within top holder →
      doc.prop? holder key = some list → isNameList key = true →
      (doc.itemsAt list)[position]? = some node → InNamePlace top node

variable (doc) in
/-- Why a reference is not listed. -/
inductive Overlooked (top node : NodeId) : Prop where
  | barred : doc.Barred top node → Overlooked top node
  | builtin {holder : NodeId} {key name : String} : doc.prop? holder key = some node →
      isNameProperty key = true → doc.string? node = some name → isBuiltinType name = true →
      Overlooked top node
  /-- A name where the search does not look for names. -/
  | misplaced : doc.isString node = true → ¬ doc.InNamePlace top node → Overlooked top node

/-! ## Where the search comes -/

theorem Bars.of_within {below : NodeId} (h : doc.Bars key value below)
    (hw : doc.Within node below) : doc.Bars key value node := by
  cases h with
  | dollar hd => exact .dollar hd
  | segments hk hno =>
    refine .segments hk fun hyes => hno ?_
    obtain ⟨position, segment, key, child, hi, hkey, hc, hin⟩ := hyes
    exact ⟨position, segment, key, child, hi, hkey, hc, hin.trans hw⟩
  | names hk ha => exact .names hk ha

theorem not_bars (hd : isDollarName key = false) (hr : key ≠ "ref")
    (hl : isNameList key = true → doc.isArray value = true) : ¬ doc.Bars key value node := by
  rintro (hb | ⟨hb, _⟩ | ⟨hb, ha⟩)
  · rw [hd] at hb
    cases hb
  · exact hr hb
  · rw [hl hb] at ha
    cases ha

theorem not_skipped_of_decoration (h : key = "args" ∨ key = "where") :
    isDollarName key = false ∧ key ≠ "ref" ∧ isNameList key = false ∧
    isNameProperty key = false := by
  rcases h with rfl | rfl <;> decide +kernel

theorem within_list {outer list item : NodeId} {position : Nat}
    (hprop : doc.prop? outer key = some value) (hw : doc.Within value item)
    (hi : (doc.itemsAt list)[position]? = some item) : doc.Within value list := by
  obtain ⟨hc, hs⟩ := container?_of_getElem?_itemsAt hi
  refine hw.container (fun heq => ?_) hc
  rw [← heq, (container?_of_prop? hprop).2] at hs
  cases hs

theorem within_holder {outer : NodeId} {key' : String} (hprop : doc.prop? outer key = some value)
    (hw : doc.Within value child) (hc : doc.prop? holder key' = some child) :
    (value = child ∧ key = key') ∨ doc.Within value holder := by
  by_cases heq : value = child
  · subst heq
    have hs := (container?_of_prop? hprop).2.symm.trans (container?_of_prop? hc).2
    cases hs
    exact .inl ⟨rfl, rfl⟩
  · exact .inr (hw.container heq (container?_of_prop? hc).1)

/-- A way that is barred behind a step of the search is barred before it. -/
theorem Visits.barred (h : doc.Visits node child) (hb : doc.Barred top child) :
    doc.Barred top node := by
  obtain ⟨outer, key, value, ho, hprop, hw, hbars⟩ := hb
  suffices hin : doc.Within value node
      from ⟨outer, key, value, ho, hprop, hin, hbars.of_within h.within⟩
  cases h with
  | item hi => exact within_list hprop hw hi
  | property hp hne hd _ hl =>
    rcases within_holder hprop hw hp with ⟨_, rfl⟩ | hin
    · exact absurd hbars (not_bars hd hne (by simp [hl]))
    · exact hin
  | @decoration list segment _ position key' hr hi hk hc =>
    obtain ⟨hd, hne, hl, _⟩ := not_skipped_of_decoration hk
    rcases within_holder hprop hw hc with ⟨_, rfl⟩ | hin
    · exact absurd hbars (not_bars hd hne (by simp [hl]))
    · -- the list of segments bars only what decorates none of them
      rcases within_holder hprop (within_list hprop hin hi)
        (prop?_of_refPath? hr).1 with ⟨rfl, rfl⟩ | hin
      · have hno : ¬ doc.Bars "ref" value child := by
          rintro (hb | ⟨_, hno⟩ | ⟨hb, _⟩)
          · exact absurd hb (by decide +kernel)
          · exact hno ⟨position, segment, key', child, hi, hk, hc, .refl⟩
          · exact absurd hb (by decide +kernel)
        exact absurd hbars hno
      · exact hin
  | nameless hp hk hi _ =>
    rcases within_holder hprop (within_list hprop hw hi) hp with ⟨rfl, rfl⟩ | hin
    · obtain ⟨hne, hd, _⟩ := not_skipped_of_isNameList hk
      exact absurd hbars (not_bars hd hne fun _ => isArray_of_getElem?_itemsAt hi)
    · exact hin

/-- The search comes nowhere by a barred way. -/
theorem Searches.not_barred (h : doc.Searches top node) : ¬ doc.Barred top node := by
  induction h with
  | refl =>
    rintro ⟨outer, key, value, ho, hprop, hw, _⟩
    exact absurd (prop?_lt hprop).1 (Nat.not_lt.mpr (hw.trans ho).le)
  | tail _ hv ih => exact fun hb => ih (hv.barred hb)

variable (doc) in
/-- The search takes notice of a name or a list of names without going there. -/
inductive Noticed (top node : NodeId) : Prop where
  | name {holder : NodeId} {key : String} : doc.Searches top holder →
      doc.prop? holder key = some node → isNameProperty key = true → doc.isString node = true →
      Noticed top node
  | names {holder : NodeId} {key : String} : doc.Searches top holder →
      doc.prop? holder key = some node → isNameList key = true → doc.isArray node = true →
      Noticed top node
  | item {holder list : NodeId} {key : String} {position : Nat} : doc.Searches top holder →
      doc.prop? holder key = some list → isNameList key = true →
      (doc.itemsAt list)[position]? = some node → doc.isString node = true → Noticed top node

variable (doc) in
/-- The search comes to a property that bars the way to the node. -/
def TurnedBack (top node : NodeId) : Prop :=
  ∃ outer key value, doc.Searches top outer ∧ doc.prop? outer key = some value ∧
    doc.Within value node ∧ doc.Bars key value node

theorem TurnedBack.barred (h : doc.TurnedBack top node) : doc.Barred top node := by
  obtain ⟨outer, key, value, ho, hprop, hw, hb⟩ := h
  exact ⟨outer, key, value, ho.within, hprop, hw, hb⟩

theorem child_cases {parent : NodeId} (h : doc.container? child = some parent) :
    (∃ key, doc.prop? parent key = some child) ∨ ∃ position : Nat, (doc.itemsAt parent)[position]? =
      some child := by
  obtain ⟨step, value, _, hv, hl⟩ := link_of_container? h
  cases value with
  | array items =>
    obtain ⟨⟨id, position⟩, hm, heq⟩ := List.mem_map.mp hl
    cases heq
    refine .inr ⟨position, ?_⟩
    rw [itemsAt, hv]
    exact List.mk_mem_zipIdx_iff_getElem?.mp hm
  | object props =>
    obtain ⟨⟨key, id⟩, hm, heq⟩ := List.mem_map.mp hl
    cases heq
    exact .inl ⟨key, (prop?_of_object hv).mp hm⟩
  | _ => simp [NodeValue.links] at hl

theorem container?_ne_of_isString (h : doc.isString node = true) :
    doc.container? child ≠ some node := by
  intro hc
  obtain ⟨_, value, _, hv, hl⟩ := link_of_container? hc
  rw [isString, string?, hv] at h
  cases value <;> simp [NodeValue.links] at h hl

/-- What the search does with the property of a node where it comes. -/
theorem searched_property (h : doc.Searches top node) (hprop : doc.prop? node key = some child) :
    doc.Searches top child ∨ doc.TurnedBack top child ∨ doc.Noticed top child := by
  have hback : doc.Bars key child child → doc.TurnedBack top child :=
    fun hb => ⟨node, key, child, h, hprop, .refl, hb⟩
  by_cases hr : key = "ref"
  · refine .inr (.inl (hback (.segments hr ?_)))
    rintro ⟨position, segment, key', inner, hi, _, hc, hw⟩
    have hlist := lt_of_mem_itemsAt (List.mem_of_getElem? hi)
    exact absurd hw.le (Nat.not_le.mpr (Nat.lt_trans hlist.1 (prop?_lt hc).1))
  cases hd : isDollarName key with
  | true => exact .inr (.inl (hback (.dollar hd)))
  | false =>
    cases hl : isNameList key with
    | true =>
      cases ha : doc.isArray child with
      | true => exact .inr (.inr (.names h hprop hl ha))
      | false => exact .inr (.inl (hback (.names hl ha)))
    | false =>
      by_cases hname : isNameProperty key = true ∧ doc.isString child = true
      · exact .inr (.inr (.name h hprop hname.1 hname.2))
      · exact .inl (.tail h (.property hprop hr hd hname hl))

/-- The search comes to a node, or is turned back on its way, or takes notice of it. -/
theorem searched_cases (h : doc.Within top node) :
    doc.Searches top node ∨ doc.TurnedBack top node ∨ doc.Noticed top node := by
  induction h with
  | refl => exact .inl .refl
  | @step node parent hc _ ih =>
    rcases ih with hs | ⟨outer, key, value, ho, hprop, hw, hb⟩ | hn
    · rcases child_cases hc with ⟨key, hprop⟩ | ⟨position, hi⟩
      · exact searched_property hs hprop
      · exact .inl (.tail hs (.item hi))
    · by_cases hb' : doc.Bars key value node
      · exact .inr (.inl ⟨outer, key, value, ho, hprop, .step hc hw, hb'⟩)
      · -- only a decoration of a segment is no longer barred
        cases hb with
        | dollar hd => exact absurd (.dollar hd) hb'
        | names hl ha => exact absurd (.names hl ha) hb'
        | segments hr hno =>
          obtain ⟨position, segment, key', child, hi, hk, hchild, hin⟩ :=
            Classical.byContradiction fun hno' => hb' (.segments hr hno')
          obtain rfl : child = node := by
            by_contra hne
            exact hno ⟨position, segment, key', child, hi, hk, hchild, hin.container hne hc⟩
          have href : doc.refPath? outer = some value := by
            subst hr
            exact Option.filter_eq_some_iff.mpr ⟨hprop, isArray_of_getElem?_itemsAt hi⟩
          exact .inl (.tail ho (.decoration href hi hk hchild))
    · cases hn with
      | name _ _ _ hs => exact absurd hc (container?_ne_of_isString hs)
      | item _ _ _ _ hs => exact absurd hc (container?_ne_of_isString hs)
      | names hs hprop hl ha =>
        rcases child_cases hc with ⟨key, hp⟩ | ⟨position, hi⟩
        · rw [prop?_of_isArray ha] at hp
          cases hp
        · cases hstr : doc.isString node with
          | true => exact .inr (.inr (.item hs hprop hl hi hstr))
          | false => exact .inl (.tail hs (.nameless hprop hl hi hstr))

/-! ## What is listed -/

theorem Within.lt_size {definition : NodeId} (h : doc.Within definition node)
    (hd : doc.isDefinition definition = true) : node < doc.size := by
  cases h with
  | refl => exact lt_size_of_container? (isDefinition_iff.mp hd)
  | step hc _ => exact lt_size_of_container? hc

/-- A path is listed when the search takes down its node. -/
theorem pathOf_mem_referencePaths_iff (h : node < doc.size) :
    doc.pathOf node ∈ doc.referencePaths top ↔ ∃ holder, doc.Searches top holder ∧
    doc.Notes holder node := by
  rw [mem_referencePaths_iff]
  constructor
  · rintro ⟨holder, noted, hs, hn, heq⟩
    obtain rfl := pathOf_injective h hn.lt_size heq
    exact ⟨holder, hs, hn⟩
  · rintro ⟨holder, hs, hn⟩
    exact ⟨holder, node, hs, hn, rfl⟩

theorem Notes.not_barred (h : doc.Notes holder node) (hs : doc.Searches top holder) :
    ¬ doc.Barred top node := by
  rintro ⟨outer, key, value, ho, hprop, hw, hbars⟩
  have hbefore : ¬ doc.Within value holder := fun hin =>
    hs.not_barred ⟨outer, key, value, ho, hprop, hin, hbars.of_within h.within⟩
  cases h with
  | reference => exact hbefore hw
  | name hp hk =>
    rcases within_holder hprop hw hp with ⟨_, rfl⟩ | hin
    · obtain ⟨hne, hd⟩ := not_skipped_of_isNameProperty hk
      refine not_bars hd hne (fun hl => ?_) hbars
      rw [(not_skipped_of_isNameList hl).2.2] at hk
      cases hk
    · exact hbefore hin
  | listed hp hk hi =>
    rcases within_holder hprop (within_list hprop hw hi) hp with ⟨rfl, rfl⟩ | hin
    · obtain ⟨hne, hd, _⟩ := not_skipped_of_isNameList hk
      exact not_bars hd hne (fun _ => isArray_of_getElem?_itemsAt hi) hbars
    · exact hbefore hin

theorem Notes.not_overlooked (h : doc.Notes holder node) (hs : doc.Searches top holder) :
    ¬ doc.Overlooked top node := by
  rintro (hb | ⟨hp, hk, hstr, hbuiltin⟩ | ⟨hstr, hno⟩)
  · exact h.not_barred hs hb
  · cases h with
    | reference hr =>
      have hstring := isString_eq_false_of_prop? (prop?_of_refPath? hr).1
      rw [isString, hstr] at hstring
      cases hstring
    | name _ _ hstr' hb =>
      rw [hstr] at hstr'
      cases hstr'
      rw [hb] at hbuiltin
      cases hbuiltin
    | listed _ _ hi =>
      have hstep := (container?_of_prop? hp).2.symm.trans (container?_of_getElem?_itemsAt hi).2
      cases hstep
  · cases h with
    | reference hr =>
      rw [isString_eq_false_of_prop? (prop?_of_refPath? hr).1] at hstr
      cases hstr
    | name hp hk => exact hno (.value hs.within hp hk)
    | listed hp hk hi => exact hno (.item hs.within hp hk hi)

/-- The search goes by no property for names. -/
theorem Visits.not_name (h : doc.Visits node child) (hp : doc.prop? holder key = some child) :
    isNameList key = false ∧ ¬ (isNameProperty key = true ∧ doc.isString child = true) := by
  have hstep := (container?_of_prop? hp).2
  cases h with
  | item hi =>
    rw [(container?_of_getElem?_itemsAt hi).2] at hstep
    cases hstep
  | nameless _ _ hi =>
    rw [(container?_of_getElem?_itemsAt hi).2] at hstep
    cases hstep
  | decoration _ _ hk hc =>
    rw [(container?_of_prop? hc).2] at hstep
    cases hstep
    obtain ⟨_, _, hl, hname⟩ := not_skipped_of_decoration hk
    simp [hl, hname]
  | property hp' _ _ hname hl =>
    rw [(container?_of_prop? hp').2] at hstep
    cases hstep
    exact ⟨hl, hname⟩

/-- The search does not come to a name in its place. -/
theorem InNamePlace.not_searches (h : doc.InNamePlace top node) (hstr : doc.isString node = true) :
    ¬ doc.Searches top node := by
  intro hs
  cases h with
  | value hw hp hk =>
    rcases hs.cases_tail with rfl | ⟨before, _, hv⟩
    · exact absurd (prop?_lt hp).1 (Nat.not_lt.mpr hw.le)
    · exact (hv.not_name hp).2 ⟨hk, hstr⟩
  | item hw hp hk hi =>
    obtain ⟨hc, hstep⟩ := container?_of_getElem?_itemsAt hi
    have hlist := lt_of_mem_itemsAt (List.mem_of_getElem? hi)
    rcases hs.cases_tail with rfl | ⟨before, hs', hv⟩
    · exact absurd (Nat.lt_trans (prop?_lt hp).1 hlist.1) (Nat.not_lt.mpr hw.le)
    · cases hv with
      | item hi' =>
        -- the search would have come to the list
        obtain rfl := Option.some.inj (hc.symm.trans (container?_of_getElem?_itemsAt hi').1)
        rcases hs'.cases_tail with rfl | ⟨_, _, hv⟩
        · exact absurd (prop?_lt hp).1 (Nat.not_lt.mpr hw.le)
        · rw [(hv.not_name hp).1] at hk
          cases hk
      | decoration _ _ _ hp' =>
        rw [(container?_of_prop? hp').2] at hstep
        cases hstep
      | property hp' =>
        rw [(container?_of_prop? hp').2] at hstep
        cases hstep
      | nameless _ _ _ hno =>
        rw [hstr] at hno
        cases hno

theorem notes_of_not_overlooked (hw : doc.Within top node)
    (hnode : (∃ list, doc.refPath? node = some list ∧ doc.itemsAt list ≠ []) ∨
      doc.isString node = true) (h : ¬ doc.Overlooked top node) :
    ∃ holder, doc.Searches top holder ∧ doc.Notes holder node := by
  rcases searched_cases hw with hs | hback | hn
  · rcases hnode with ⟨list, hr, hne⟩ | hstr
    · exact ⟨node, hs, .reference hr hne⟩
    · exact absurd (.misplaced hstr fun hplace => hplace.not_searches hstr hs) h
  · exact absurd (.barred hback.barred) h
  · cases hn with
    | name hs hp hk hstr =>
      obtain ⟨name, hname⟩ := exists_string?_of_isString hstr
      refine ⟨_, hs, .name hp hk hname ?_⟩
      cases hb : isBuiltinType name with
      | false => rfl
      | true => exact absurd (.builtin hp hk hname hb) h
    | item hs hp hk hi hstr => exact ⟨_, hs, .listed hp hk hi hstr⟩
    | names _ _ _ ha =>
      rcases hnode with ⟨list, hr, _⟩ | hstr
      · have hp := (prop?_of_refPath? hr).1
        rw [prop?_of_isArray ha] at hp
        cases hp
      · rw [isString_of_isArray ha] at hstr
        cases hstr

end Document

/-! ## What holds a reference -/

/-- A reference that its own node holds is an object with segments, or a name. -/
theorem Walk.Behind.holds_of_finish {doc : Document} {main : NodeId} {walk : Walk} {path : Path}
    {site : Site} (h : Behind walk) (hf : walk.finish doc main path = .ok site)
    (hk : site.kind = .reference) (hh : site.holder = walk.node) :
    (∃ list, doc.refPath? walk.node = some list) ∨ doc.isString walk.node = true := by
  unfold finish at hf
  split at hf
  · split at hf
    · cases hf
      cases hk
    · split at hf
      · cases hf
        cases hk
      · split at hf
        · split at hf <;> cases hf
        · cases hf
  · dsimp only at hf
    split at hf
    · next holder outer houter =>
      cases hf
      split at houter
      · exact absurd hh (Nat.ne_of_lt (h.holder holder outer houter))
      · cases houter
    · split at hf
      · next hr => exact .inl (Option.isSome_iff_exists.mp hr)
      · split at hf
        · next hname =>
          simp only [Bool.and_eq_true, Option.any_eq_true] at hname
          obtain ⟨_, name, hs, _⟩ := hname
          exact .inr (by rw [Document.isString, hs]; rfl)
        · cases hf

namespace Model

open CacheM

variable {m : Model}

/-- A reference that denotes a node has segments. -/
theorem segments_ne_nil {s : Cache} {path : Path} {topology : Topology} {site : Site}
    {r : Resolution} (hs : m.Reachable s) (hsite : m.siteAt? path = .ok (topology, site))
    (hk : site.kind = .reference) (hr : (exec (m.inspect path) s).1 = .ok r)
    (hart : r.art.isSome = true) : m.segmentsOf site.holder ≠ [] := by
  obtain ⟨_, _, hsame, _, path', topology', site', hsite', hholder, hwalk⟩ :=
    governs_walks.resolves hs trivial hr
  rw [hsite] at hsame
  cases hsame
  have hlinked : r.scope.isUnlinked = false := by
    cases hu : r.scope.isUnlinked with
    | false => rfl
    | true =>
      rw [(hwalk.unlinked hu).2] at hart
      cases hart
  obtain ⟨hcount, last, hlast, _⟩ := hwalk.linked hlinked
  intro hnil
  rw [linkCount, (kind_eq_of_holder hsite hsite' hholder.symm).symm.trans hk,
    hholder, hnil] at hcount
  rw [List.length_eq_zero_iff.mp hcount] at hlast
  cases hlast

/-- A reference that a session resolves to a node is listed for its definition, unless it is
overlooked. -/
theorem lists_resolved_unless_overlooked {m : Model} {s : Cache} {definition node : NodeId}
    {topology : Topology} {links : List TopologyLink} {site : Site} {r : Resolution}
    (hb : m.doc.buildTopology m.options definition = .ok (topology, links))
    (ho : m.doc.owner? node = some definition)
    (ha : Site.analyze m.doc topology (m.doc.pathOf node) = .ok site) (hk : site.kind = .reference)
    (hh : site.holder = node) (hs : m.Reachable s)
    (hr : (exec (m.inspect (m.doc.pathOf node)) s).1 = .ok r) (hart : r.art.isSome = true) :
    m.doc.pathOf node ∈ m.doc.referencePaths definition ↔ ¬ m.doc.Overlooked definition node := by
  obtain ⟨hd, hw⟩ := Document.owner?_eq_some_iff.mp ho
  have hsite := siteAt?_of_analyze (Document.pathDefinition_pathOf ho) hb ha
  have hsegments := segments_ne_nil hs hsite hk hr hart
  obtain ⟨walk, hwalk, rfl, _⟩ := Walk.walkTo?_spec topology hd hw
  have halong : Walk.Along m.doc topology definition (m.doc.pathOf walk.node) walk :=
    ⟨Document.pathDefinition_pathOf ho, (Walk.walkTo?_eq_some_iff _).mp hwalk⟩
  rw [halong.analyze] at ha
  rw [Document.pathOf_mem_referencePaths_iff (hw.lt_size hd)]
  constructor
  · rintro ⟨holder, hsearch, hnotes⟩
    exact hnotes.not_overlooked hsearch
  · refine Document.notes_of_not_overlooked hw
      ((halong.behind.holds_of_finish ha hk hh).imp_left ?_)
    rintro ⟨list, hlist⟩
    refine ⟨list, hlist, ?_⟩
    rwa [segmentsOf, hh, hlist] at hsegments

/-! ### A member named like a property -/

/-- Orders with a member named `ref`, one whose type is a definition named like a built-in type, and
one that follows an association with a filter. -/
def orderModel : Model :=
  ⟨.ofDefinitions [
    ("Integer", .object [("kind", .string "type")]),
    ("Places", .object [("elements", .object
      [("city", .object [("type", .string "cds.String")])])]),
    ("Orders", .object [("elements", .object [
      ("ref", .object [("type", .string "Places")]),
      ("count", .object [("type", .string "Integer")]),
      ("home", .object [("target", .string "Places")]),
      ("city", .object [("value", .object [("ref", .array [
        .object [("id", .string "home"), ("where",
          .array [.object [("ref", .array [.string "city"])]])],
        .string "city"])])])])])], {}⟩

/-- The members of the orders have them as parent. -/
def orderLinks : List TopologyLink :=
  [.parent 10 8, .parent 12 8, .parent 14 8, .parent 16 8]

/-- The path of a member of the orders. -/
def orderMember (name : String) : Path :=
  ⟨[.key "definitions", .key "Orders", .key "elements", .key name]⟩

/-- The site of a reference of a member. -/
def orderSite (holder member : NodeId) (context : Context) (base : Option BaseRef) : Site :=
  { kind := .reference, holder, context, main := 8, query := none, member := some member,
    memberParent := some 8, base }

/-- The reference of a member denotes a node. -/
def orderResolution (art member : NodeId) (scope : Scope) (context : Context) : Resolution :=
  { links := [⟨art, none⟩], art := some art, parent := some member, scope, env := none, context }

/-- The reference in the filter is listed, and not overlooked. -/
theorem orders_list_filter :
    orderModel.doc.buildTopology {} 8 = .ok (⟨8, [], []⟩, orderLinks) ∧
      Site.analyze orderModel.doc ⟨8, [], []⟩ (orderModel.doc.pathOf 22) =
        .ok (orderSite 22 16 .refWhere
          (some (.segment ((orderMember "city").push (.key "value")) 0))) ∧
      (exec (orderModel.inspect (orderModel.doc.pathOf 22)) Cache.empty).1 =
        .ok (orderResolution 6 16 .refTarget .refWhere) ∧
      orderModel.doc.pathOf 22 ∈ orderModel.doc.referencePaths 8 ∧
      ¬ orderModel.doc.Overlooked 8 22 := by
  have hb : orderModel.doc.buildTopology orderModel.options 8 = .ok (⟨8, [], []⟩, orderLinks) :=
    eq_ok_of_toOption (by decide +kernel)
  have ha : Site.analyze orderModel.doc ⟨8, [], []⟩ (orderModel.doc.pathOf 22) =
      .ok (orderSite 22 16 .refWhere
        (some (.segment ((orderMember "city").push (.key "value")) 0))) :=
    eq_ok_of_toOption (by decide +kernel)
  have hr : (exec (orderModel.inspect (orderModel.doc.pathOf 22)) Cache.empty).1 =
      .ok (orderResolution 6 16 .refTarget .refWhere) := eq_ok_of_toOption (by decide +kernel)
  have hlisted : orderModel.doc.pathOf 22 ∈ orderModel.doc.referencePaths 8 := by decide +kernel
  exact ⟨hb, ha, hr, hlisted,
    (lists_resolved_unless_overlooked hb (by decide +kernel) ha rfl rfl .new hr rfl).mp hlisted⟩

/-- Not all references that denote a node are listed: neither the type of the member named `ref` is,
nor the type that is named like a built-in one. -/
theorem resolved_types_not_listed :
    orderModel.doc.buildTopology {} 8 = .ok (⟨8, [], []⟩, orderLinks) ∧
      (orderModel.doc.pathOf 11 = (orderMember "ref").push (.key "type") ∧
        Site.analyze orderModel.doc ⟨8, [], []⟩ (orderModel.doc.pathOf 11) =
          .ok (orderSite 11 10 .type none) ∧
        (exec (orderModel.inspect (orderModel.doc.pathOf 11)) Cache.empty).1 =
          .ok (orderResolution 4 10 .global .type) ∧
        orderModel.doc.pathOf 11 ∉ orderModel.doc.referencePaths 8) ∧
      (orderModel.doc.pathOf 13 = (orderMember "count").push (.key "type") ∧
        Site.analyze orderModel.doc ⟨8, [], []⟩ (orderModel.doc.pathOf 13) =
          .ok (orderSite 13 12 .type none) ∧
        (exec (orderModel.inspect (orderModel.doc.pathOf 13)) Cache.empty).1 =
          .ok (orderResolution 2 12 .global .type) ∧
        orderModel.doc.pathOf 13 ∉ orderModel.doc.referencePaths 8) := by
  refine ⟨eq_ok_of_toOption ?_, ⟨?_, eq_ok_of_toOption ?_, eq_ok_of_toOption ?_, ?_⟩, ?_,
    eq_ok_of_toOption ?_, eq_ok_of_toOption ?_, ?_⟩ <;> decide +kernel

end Model

end SchemaRefs
