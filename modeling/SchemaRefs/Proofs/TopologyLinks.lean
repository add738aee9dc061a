import SchemaRefs.Proofs.ColumnSteps

/-!
# The links of members and columns

A member has one parent (`Declares.unique`), and the links of a definition name it
(`declares_of_mem_memberLinks`). A column yields one result member (`columnLinks_linkColumns`), and
it is a column of one `SELECT` only (`ColumnBelow.unique`). So no two links of a topology say
different things about one node.
-/

namespace SchemaRefs

namespace Document

variable {doc : Document} {walk : ColumnWalk}
  {column columns element elements member owner parent part top : NodeId} {key : String}

/-! ## Members -/

/-- The parent of the direct members of the part of a node under a key, where `top` is the one of
the node itself. -/
def partTop? (key : String) (top part : NodeId) : Option NodeId :=
  if key = "items" then some top
  else if key = "targetAspect" ∨ key = "returns" then some part
  else none

variable (doc) in
/-- `parent` is the parent of `member`, which is declared below `owner`. The direct members of
`owner` have the parent `top`. -/
inductive Declares : (owner top member parent : NodeId) → Prop where
  | direct {owner top map member : NodeId} {key name : String} : key ∈ memberKeys →
      doc.prop? owner key = some map → (name, member) ∈ doc.entries map →
      Declares owner top member top
  | inner {owner top map between member parent : NodeId} {key name : String} : key ∈ memberKeys →
      doc.prop? owner key = some map → (name, between) ∈ doc.entries map →
      Declares between between member parent → Declares owner top member parent
  | part {owner top part partTop member parent : NodeId} {key : String} :
      partTop? key top part = some partTop → doc.objectProp? owner key = some part →
      Declares part partTop member parent → Declares owner top member parent

theorem prop?_of_objectProp? {id child : NodeId}
    (h : doc.objectProp? id key = some child) : doc.prop? id key = some child :=
  Option.eq_some_of_filter_eq_some h

theorem declares_of_mem_memberLinks {link : TopologyLink} (h : link ∈ doc.memberLinks owner top) :
    ∃ member parent, link = .parent member parent ∧ doc.Declares owner top member parent := by
  induction owner, top using memberLinks.induct doc with
  | case1 owner top ihDirect ihItems ihAspect ihReturns =>
    rw [memberLinks] at h
    simp only [List.mem_append] at h
    rcases h with ((h | h) | h) | h
    · obtain ⟨key, hkey, h⟩ := List.mem_flatMap.mp h
      split at h
      · cases h
      · next map hmap =>
        obtain ⟨⟨⟨name, member⟩, hm⟩, _, h⟩ := List.mem_flatMap.mp h
        rcases List.mem_cons.mp h with rfl | h
        · exact ⟨member, top, rfl, .direct hkey hmap hm⟩
        · obtain ⟨member', parent, rfl, hd⟩ := ihDirect key map hmap name member hm h
          exact ⟨member', parent, rfl, .inner hkey hmap hm hd⟩
    · split at h
      · cases h
      · next items hi =>
        obtain ⟨member, parent, rfl, hd⟩ := ihItems items hi h
        exact ⟨member, parent, rfl, .part rfl hi hd⟩
    · split at h
      · cases h
      · next aspect ha =>
        obtain ⟨member, parent, rfl, hd⟩ := ihAspect aspect ha h
        exact ⟨member, parent, rfl, .part rfl ha hd⟩
    · split at h
      · cases h
      · next returns hr =>
        obtain ⟨member, parent, rfl, hd⟩ := ihReturns returns hr h
        exact ⟨member, parent, rfl, .part rfl hr hd⟩

/-- The keys below which members are declared. -/
def isMemberPath (key : String) : Bool :=
  memberKeys.contains key || key == "items" || key == "targetAspect" || key == "returns"

theorem isMemberPath_of_partTop? {partTop : NodeId}
    (h : partTop? key top part = some partTop) : isMemberPath key = true := by
  unfold partTop? at h
  split at h
  · next hk => subst hk; decide
  · split at h
    · next hk => rcases hk with rfl | rfl <;> decide
    · cases h

theorem isMemberPath_of_mem (h : key ∈ memberKeys) : isMemberPath key = true := by
  simp [isMemberPath, h]

/-- A member lies below one of the properties of its owner in which members are declared. -/
theorem Declares.exists_prop? (h : doc.Declares owner top member parent) :
    ∃ key child, isMemberPath key = true ∧ doc.prop? owner key = some child ∧
      doc.Within child member ∧ child ≠ member := by
  induction h with
  | @direct owner top map member key name hkey hmap hm =>
    have hlt := (lt_of_mem_entries hm).1
    exact ⟨key, map, isMemberPath_of_mem hkey, hmap,
      within_of_container? (container?_of_mem_entries hm).1, Nat.ne_of_lt hlt⟩
  | @inner owner top map between member parent key name hkey hmap hm _ ih =>
    obtain ⟨_, child, _, hchild, hw, _⟩ := ih
    have hin : doc.Within between member :=
      (within_of_container? (container?_of_prop? hchild).1).trans hw
    have hlt := (lt_of_mem_entries hm).1
    exact ⟨key, map, isMemberPath_of_mem hkey, hmap,
      (within_of_container? (container?_of_mem_entries hm).1).trans hin,
      Nat.ne_of_lt (Nat.lt_of_lt_of_le hlt hin.le)⟩
  | @part owner top part partTop member parent key htop hpart _ ih =>
    obtain ⟨_, child, _, hchild, hw, _⟩ := ih
    have hlt := (prop?_lt hchild).1
    exact ⟨key, part, isMemberPath_of_partTop? htop, prop?_of_objectProp? hpart,
      (within_of_container? (container?_of_prop? hchild).1).trans hw,
      Nat.ne_of_lt (Nat.lt_of_lt_of_le hlt hw.le)⟩

theorem Declares.within (h : doc.Declares owner top member parent) :
    doc.Within owner member ∧ owner ≠ member := by
  obtain ⟨_, child, _, hc, hw, _⟩ := h.exists_prop?
  exact ⟨(within_of_container? (container?_of_prop? hc).1).trans hw,
    Nat.ne_of_lt (Nat.lt_of_lt_of_le (prop?_lt hc).1 hw.le)⟩

/-- A parent contains its members. -/
theorem Declares.parent_within
    (h : doc.Declares owner top member parent) (ht : doc.Within top owner) :
    doc.Within top parent ∧ doc.Within parent member ∧ parent ≠ member := by
  induction h with
  | @direct owner top map member key name hkey hmap hm =>
    have hw : doc.Within owner member ∧ owner ≠ member :=
      Declares.within (.direct hkey hmap hm : doc.Declares owner top member top)
    exact ⟨.refl, ht.trans hw.1,
      Nat.ne_of_lt (Nat.lt_of_le_of_lt ht.le (Nat.lt_of_le_of_ne hw.1.le hw.2))⟩
  | @inner owner top map between member parent key name hkey hmap hm _ ih =>
    have hb : doc.Within owner between ∧ owner ≠ between :=
      Declares.within (.direct hkey hmap hm : doc.Declares owner top between top)
    obtain ⟨hp, hpm⟩ := ih .refl
    exact ⟨(ht.trans hb.1).trans hp, hpm⟩
  | @part owner top part partTop member parent key htop hpart hd ih =>
    have hin : doc.Within owner part :=
      within_of_container? (container?_of_prop? (prop?_of_objectProp? hpart)).1
    unfold partTop? at htop
    split at htop
    · cases htop
      exact ih (ht.trans hin)
    · split at htop
      · cases htop
        obtain ⟨hp, hpm⟩ := ih .refl
        exact ⟨(ht.trans hin).trans hp, hpm⟩
      · cases htop

theorem prop?_unique {id a b node : NodeId} {k₁ k₂ : String} (ha : doc.prop? id k₁ = some a)
    (hb : doc.prop? id k₂ = some b) (hna : doc.Within a node) (hnb : doc.Within b node) :
    k₁ = k₂ ∧ a = b := by
  by_cases hk : k₁ = k₂
  · subst hk
    rw [ha] at hb
    exact ⟨rfl, Option.some.inj hb⟩
  · exact absurd hnb ((apart_of_prop? ha hb hk).not_within hna)

theorem memberKeys_partTop? (hk : key ∈ memberKeys) (top part : NodeId) :
    partTop? key top part = none := by
  simp only [memberKeys, List.mem_cons, List.not_mem_nil, or_false] at hk
  rcases hk with rfl | rfl | rfl | rfl <;> rfl

theorem not_within_map_and_part {map partTop node : NodeId} {key' : String}
    (hkey : key ∈ memberKeys) (hmap : doc.prop? owner key = some map)
    (htop : partTop? key' top part = some partTop) (hpart : doc.objectProp? owner key' = some part)
    (hnm : doc.Within map node) (hnp : doc.Within part node) : False := by
  obtain ⟨rfl, rfl⟩ := prop?_unique hmap (prop?_of_objectProp? hpart) hnm hnp
  rw [memberKeys_partTop? hkey] at htop
  cases htop

/-- A member of a node is not declared below another of its members. -/
theorem Declares.not_entry {map map' between : NodeId} {key' name name' : String}
    (hd : doc.Declares between top member parent) (hmap : doc.prop? owner key = some map)
    (hm : (name, between) ∈ doc.entries map) (hmap' : doc.prop? owner key' = some map') :
    (name', member) ∉ doc.entries map' := by
  intro hm'
  have hb := (container?_of_mem_entries hm).1
  have hc := (container?_of_mem_entries hm').1
  obtain ⟨hw, hne⟩ := hd.within
  obtain ⟨rfl, rfl⟩ := prop?_unique hmap hmap' ((within_of_container? hb).trans hw)
    (within_of_container? hc)
  exact hne (eq_of_within_of_container? hb hc hw)

/-- A member has one parent. -/
theorem Declares.unique {parent' : NodeId}
    (h : doc.Declares owner top member parent) (h' : doc.Declares owner top member parent') :
    parent = parent' := by
  induction h generalizing parent' with
  | direct hkey hmap hm =>
    have hw := within_of_container? (container?_of_mem_entries hm).1
    cases h' with
    | direct => rfl
    | inner _ hmap' hm' hd' => exact absurd hm (hd'.not_entry hmap' hm' hmap)
    | part htop hpart hd' =>
      exact (not_within_map_and_part hkey hmap htop hpart hw hd'.within.1).elim
  | inner hkey hmap hm hd ih =>
    have hb := within_of_container? (container?_of_mem_entries hm).1
    have hw := hb.trans hd.within.1
    cases h' with
    | direct _ hmap' hm' => exact absurd hm' (hd.not_entry hmap hm hmap')
    | inner _ hmap' hm' hd' =>
      have hb' := within_of_container? (container?_of_mem_entries hm').1
      obtain ⟨rfl, rfl⟩ := prop?_unique hmap hmap' hw (hb'.trans hd'.within.1)
      obtain rfl := within_disjoint (container?_of_mem_entries hm).1
        (container?_of_mem_entries hm').1 hd.within.1 hd'.within.1
      exact ih hd'
    | part htop hpart hd' =>
      exact (not_within_map_and_part hkey hmap htop hpart hw hd'.within.1).elim
  | part htop hpart hd ih =>
    have hw := hd.within.1
    cases h' with
    | direct hkey' hmap' hm' =>
      have hw' := within_of_container? (container?_of_mem_entries hm').1
      exact (not_within_map_and_part hkey' hmap' htop hpart hw' hw).elim
    | inner hkey' hmap' hm' hd' =>
      have hw' := (within_of_container? (container?_of_mem_entries hm').1).trans hd'.within.1
      exact (not_within_map_and_part hkey' hmap' htop hpart hw' hw).elim
    | part htop' hpart' hd' =>
      obtain ⟨rfl, rfl⟩ := prop?_unique (prop?_of_objectProp? hpart)
        (prop?_of_objectProp? hpart') hw hd'.within.1
      rw [htop] at htop'
      cases htop'
      exact ih hd'

/-! ## Columns -/

variable (doc) in
/-- A column of a list, or of the items of an inlined or expanded one. -/
inductive ColumnBelow (columns : NodeId) : NodeId → Prop where
  | item {column : NodeId} : column ∈ doc.itemsAt columns → ColumnBelow columns column
  | nested {outer inner column : NodeId} {key : String} : ColumnBelow columns outer →
      key = "inline" ∨ key = "expand" → doc.prop? outer key = some inner →
      column ∈ doc.itemsAt inner → ColumnBelow columns column

theorem ColumnBelow.within (h : doc.ColumnBelow columns column) :
    doc.Within columns column ∧ columns ≠ column := by
  induction h with
  | item hc =>
    exact ⟨within_of_container? (container?_of_mem_itemsAt hc).1,
      Nat.ne_of_lt (lt_of_mem_itemsAt hc).1⟩
  | nested _ _ hi hc ih =>
    have hin := (within_of_container? (container?_of_prop? hi).1).trans
      (within_of_container? (container?_of_mem_itemsAt hc).1)
    have hlt := Nat.lt_trans (prop?_lt hi).1 (lt_of_mem_itemsAt hc).1
    exact ⟨ih.1.trans hin, Nat.ne_of_lt (Nat.lt_of_le_of_lt ih.1.le hlt)⟩

theorem ColumnBelow.lift {outer inner : NodeId}
    (ho : outer ∈ doc.itemsAt columns) (hk : key = "inline" ∨ key = "expand")
    (hi : doc.prop? outer key = some inner) (h : doc.ColumnBelow inner column) :
    doc.ColumnBelow columns column := by
  induction h with
  | item hc => exact .nested (.item ho) hk hi hc
  | nested _ hk' hi' hc ih => exact .nested ih hk' hi' hc

/-- A column belongs to one list of columns. -/
theorem ColumnBelow.unique {list list' : NodeId} (h : doc.ColumnBelow list column)
    (h' : doc.ColumnBelow list' column) (hl : doc.step? list = some (.key "columns"))
    (hl' : doc.step? list' = some (.key "columns")) : list = list' := by
  -- the container of an item is its list: one that is called `columns` is the whole of it
  have hcall : ∀ {outer inner : NodeId} {key : String}, key = "inline" ∨ key = "expand" →
      doc.prop? outer key = some inner → doc.step? inner ≠ some (.key "columns") := by
    intro outer inner key hk hi heq
    rw [(container?_of_prop? hi).2] at heq
    rcases hk with rfl | rfl <;> simp at heq
  induction h with
  | item hc =>
    cases h' with
    | item hc' =>
      exact Option.some.inj
        ((container?_of_mem_itemsAt hc).1.symm.trans (container?_of_mem_itemsAt hc').1)
    | nested _ hk hi hc' =>
      obtain rfl := Option.some.inj
        ((container?_of_mem_itemsAt hc).1.symm.trans (container?_of_mem_itemsAt hc').1)
      exact absurd hl (hcall hk hi)
  | nested _ hk hi hc ih =>
    cases h' with
    | item hc' =>
      obtain rfl := Option.some.inj
        ((container?_of_mem_itemsAt hc).1.symm.trans (container?_of_mem_itemsAt hc').1)
      exact absurd hl' (hcall hk hi)
    | nested h' hk' hi' hc' =>
      obtain rfl := Option.some.inj
        ((container?_of_mem_itemsAt hc).1.symm.trans (container?_of_mem_itemsAt hc').1)
      obtain rfl := Option.some.inj
        ((container?_of_prop? hi).1.symm.trans (container?_of_prop? hi').1)
      exact ih h'

variable (doc) in
/-- Links from columns of a list to members within `elements`, one for each column. -/
structure ColumnLinks (columns elements : NodeId) (links : List TopologyLink) : Prop where
  shape : ∀ link ∈ links, ∃ column element, link = .column column element ∧
    doc.ColumnBelow columns column ∧ doc.Within elements element
  functional : ∀ column element element', .column column element ∈ links →
    .column column element' ∈ links → element = element'

theorem ColumnLinks.nil (columns elements : NodeId) : doc.ColumnLinks columns elements [] :=
  ⟨by simp, by simp⟩

theorem ColumnLinks.single (hc : column ∈ doc.itemsAt columns) (he : doc.Within elements element) :
    doc.ColumnLinks columns elements [.column column element] := by
  refine ⟨fun link hl => ?_, fun c e e' h h' => ?_⟩
  · rw [List.mem_singleton.mp hl]
    exact ⟨column, element, rfl, .item hc, he⟩
  · cases List.mem_singleton.mp h
    cases List.mem_singleton.mp h'
    rfl

theorem ColumnLinks.columnBelow {links : List TopologyLink}
    (h : doc.ColumnLinks columns elements links) (hl : .column column element ∈ links) :
    doc.ColumnBelow columns column := by
  obtain ⟨_, _, heq, hc, _⟩ := h.shape _ hl
  cases heq
  exact hc

/-- Links of columns that have nothing in common can be put together. -/
theorem ColumnLinks.append {xs ys : List TopologyLink}
    (hx : doc.ColumnLinks columns elements xs) (hy : doc.ColumnLinks columns elements ys)
    (hne : ∀ c e e', .column c e ∈ xs → .column c e' ∉ ys) :
    doc.ColumnLinks columns elements (xs ++ ys) := by
  constructor
  · intro link hl
    rcases List.mem_append.mp hl with hl | hl
    · exact hx.shape link hl
    · exact hy.shape link hl
  · intro c e e' h h'
    rcases List.mem_append.mp h with h | h <;> rcases List.mem_append.mp h' with h' | h'
    · exact hx.functional c e e' h h'
    · exact absurd h' (hne c e e' h)
    · exact absurd h (hne c e' e h')
    · exact hy.functional c e e' h h'

theorem ColumnLinks.lift {inner : NodeId}
    {links : List TopologyLink} (h : doc.ColumnLinks inner part links)
    (hc : column ∈ doc.itemsAt columns) (hk : key = "inline" ∨ key = "expand")
    (hi : doc.prop? column key = some inner) (hp : doc.Within elements part) :
    doc.ColumnLinks columns elements links := by
  refine ⟨fun link hl => ?_, h.functional⟩
  obtain ⟨c, e, rfl, hb, he⟩ := h.shape link hl
  exact ⟨c, e, rfl, hb.lift hc hk hi, hp.trans he⟩

/-- The elements of a member are its own, or those of its items. -/
theorem exists_holder_of_expandedElements? (h : doc.expandedElements? element = some elements) :
    ∃ holder, doc.Within element holder ∧ doc.prop? holder "elements" = some elements := by
  unfold expandedElements? at h
  cases hp : doc.prop? element "elements" with
  | some found =>
    rw [hp] at h
    cases h
    exact ⟨element, .refl, hp⟩
  | none =>
    rw [hp] at h
    obtain ⟨items, hi, he⟩ := Option.bind_eq_some_iff.mp h
    exact ⟨items, within_of_container? (container?_of_prop? hi).1, he⟩

theorem within_of_expandedElements?
    (h : doc.expandedElements? element = some elements) : doc.Within element elements := by
  obtain ⟨holder, hw, he⟩ := exists_holder_of_expandedElements? h
  exact hw.trans (within_of_container? (container?_of_prop? he).1)

variable (doc) in
/-- What one column adds to the links. -/
def AddsLinks (columns elements column : NodeId) (walk walk' : ColumnWalk) : Prop :=
  ∃ new, walk'.links = walk.links ++ new ∧ doc.ColumnLinks columns elements new ∧
    ∀ c e, .column c e ∈ new → doc.Within column c

theorem AddsLinks.of_eq (columns elements column : NodeId) {walk' : ColumnWalk}
    (h : walk'.links = walk.links) : doc.AddsLinks columns elements column walk walk' :=
  ⟨[], by rw [h, List.append_nil], .nil columns elements, by simp⟩

/-- A column has one link, before those of the columns below it. -/
theorem ColumnStep.addsLinks {options : Options} {start : String} {number position : Nat}
    {walk' : ColumnWalk} (hc : column ∈ doc.itemsAt columns)
    (hinner : ∀ key list, doc.prop? column key = some list →
      ∀ elements start rest, doc.linkColumns options elements start number list = .ok rest →
      doc.ColumnLinks list elements rest.links)
    (h : doc.ColumnStep options elements start number walk column position walk') :
    doc.AddsLinks columns elements column walk walk' := by
  cases h with
  | wildcard | skipped => exact .of_eq columns elements column rfl
  | inlined _ _ hi hin =>
    have hl := hinner _ _ hi _ _ _ hin
    refine ⟨_, rfl, hl.lift hc (.inl rfl) hi .refl, fun c e hce => ?_⟩
    exact (within_of_container? (container?_of_prop? hi).1).trans (hl.columnBelow hce).within.1
  | member _ _ _ hel =>
    refine ⟨_, rfl, .single hc (within_of_container? (container?_of_prop? hel).1),
      fun c e hce => ?_⟩
    cases List.mem_singleton.mp hce
    exact .refl
  | expanded _ _ _ hel hx hex hin =>
    have hl := hinner _ _ hx _ _ _ hin
    have hw := within_of_container? (container?_of_prop? hel).1
    have hcol := within_of_container? (container?_of_prop? hx).1
    refine ⟨_, rfl, (ColumnLinks.single hc hw).append
      (hl.lift hc (.inr rfl) hx (hw.trans (within_of_expandedElements? hex))) ?_, fun c e hce => ?_⟩
    · intro c e e' hce hce'
      cases List.mem_singleton.mp hce
      have hlt := Nat.lt_of_lt_of_le (prop?_lt hx).1 (hl.columnBelow hce').within.1.le
      exact Nat.lt_irrefl _ hlt
    · rcases List.mem_cons.mp hce with hce | hce
      · cases hce
        exact .refl
      · exact hcol.trans (hl.columnBelow hce).within.1

/-- The links of a list of columns: each column has one, to a member within the result elements. -/
theorem columnLinks_linkColumns {options : Options} {number : Nat} {start : String}
    (h : doc.linkColumns options elements start number columns = .ok walk) :
    doc.ColumnLinks columns elements walk.links := by
  induction columns using descending_induction doc generalizing elements start walk with
  | step columns ih =>
    let I : List (NodeId × Nat) → ColumnWalk → Prop := fun rest walk =>
      rest.Pairwise (fun a b => doc.Apart a.1 b.1) ∧ doc.ColumnLinks columns elements walk.links ∧
        ∀ c e, .column c e ∈ walk.links → ∀ r ∈ rest, ¬ doc.Within r.1 c
    have hstart : I (doc.itemsAt columns).zipIdx {} :=
      ⟨pairwise_zipIdx_itemsAt (doc.pairwise_itemsAt columns), .nil columns elements,
        fun _ _ hl => by cases hl⟩
    refine (linkColumns_rest I hstart ?_ h).2.1
    -- one column: its links lie within it, so they have nothing in common with the rest
    rintro column position rest walk walk' hc ⟨hp, hlinks, hrest⟩ hstep
    obtain ⟨hpc, hpr⟩ := List.pairwise_cons.mp hp
    have hlt := (lt_of_mem_itemsAt hc).1
    obtain ⟨new, heq, hnew, hin⟩ := hstep.addsLinks hc fun key list hkey elements start inner hin =>
      ih list (Nat.lt_trans hlt (prop?_lt hkey).1) (prop?_lt hkey).2 hin
    refine ⟨hpr, ?_, fun c e hce r hr => ?_⟩
    · rw [heq]
      refine hlinks.append hnew fun c e e' hold hnew => ?_
      exact hrest c e hold _ List.mem_cons_self (hin c e' hnew)
    · rw [heq] at hce
      rcases List.mem_append.mp hce with hce | hce
      · exact hrest c e hce r (List.mem_cons_of_mem _ hr)
      · exact (hpc r hr).not_within (hin c e hce)

end Document

end SchemaRefs
