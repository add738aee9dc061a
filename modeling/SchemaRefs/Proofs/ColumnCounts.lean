import Mathlib.Data.List.Dedup
import SchemaRefs.Proofs.CrossLinks

/-!
# Result members without columns

Without tolerance, a query has to have as many columns as result members, but it is not asked
whether these are columns of different members. The columns of the main query yield the members of
their names, where a column without name has that of the member at its position
(`Document.resultName?`).

* `members_have_first_column_of_name`: the column of a member is the first one of its name, and
  exactly as many members are without column as there are members in excess of the distinct names;
* `member_without_column`: so a view may be accepted with a member that no column yields.
-/

namespace SchemaRefs

namespace Document

variable {doc : Document} {options : Options} {definition : NodeId}

/-! ## The names of columns -/

variable (doc) in
/-- The name of the result member of a column at a position, outside of inlined columns and without
wildcards. -/
def resultName? (elements : NodeId) (entry : NodeId × Nat) : Option String :=
  doc.columnName? entry.1 <|> (doc.entries elements)[entry.2]?.map Prod.fst

variable (doc) in
/-- The first of some columns that has a name. -/
def columnNamed? (elements : NodeId) (entries : List (NodeId × Nat)) (name : String) :
    Option NodeId :=
  (entries.find? fun entry => doc.resultName? elements entry == some name).map Prod.fst

section Names

variable {elements column : NodeId} {number position : Nat} {name : String}

theorem resultName?_of_columnKey
    (h : doc.columnKey elements "" number position column false = .ok name) :
    doc.resultName? elements (column, position) = some name := by
  unfold columnKey at h
  unfold resultName?
  split at h
  · next hname =>
    cases h
    rw [hname]
    rfl
  · next hname =>
    rw [hname]
    simp only [Bool.not_false, Bool.true_and] at h
    split at h
    · split at h
      · next hentry =>
        cases h
        rw [hentry]
        rfl
      · cases h
    · cases h

/-- The elements of a member have none of the members around it among them. -/
theorem not_within_expandedElements? {member element inside : NodeId}
    (hm : doc.container? member = some elements) (he : doc.container? element = some elements)
    (hin : doc.expandedElements? element = some inside) : ¬ doc.Within inside member := by
  intro hw
  obtain rfl := eq_of_within_of_container? he hm ((within_of_expandedElements? hin).trans hw)
  obtain ⟨holder, hholder, hprop⟩ := exists_holder_of_expandedElements? hin
  exact absurd hw.le (Nat.not_le_of_lt (Nat.lt_of_le_of_lt hholder.le (prop?_lt hprop).1))

end Names

/-! ## Counting columns -/

variable (doc) in
/-- What is known after some columns, when none of them was skipped, inlined or a wildcard. -/
structure Tallied (elements : NodeId) (done : List (NodeId × Nat)) (walk : ColumnWalk) : Prop where
  closed : walk.wildcard = false
  counted : walk.linked = done.length
  named : ∀ entry ∈ done, ∃ name member, doc.resultName? elements entry = some name ∧
    doc.prop? elements name = some member
  first : ∀ name member, doc.prop? elements name = some member →
    walk.links.findSome? (TopologyLink.columnFor? member) = doc.columnNamed? elements done name

section Tally

variable {elements column element : NodeId} {number position : Nat} {name : String}
  {done : List (NodeId × Nat)} {walk walk' : ColumnWalk}

/-- A column yields one member of these elements, and those below it yield none. -/
theorem Tallied.add (h : doc.Tallied elements done walk)
    (hname : doc.resultName? elements (column, position) = some name)
    (helement : doc.prop? elements name = some element) {deeper : List TopologyLink}
    (hdeeper : ∀ member, doc.container? member = some elements →
      deeper.findSome? (TopologyLink.columnFor? member) = none) :
    doc.Tallied elements (done ++ [(column, position)])
      { walk with
        linked := walk.linked + 1, links := walk.links ++ .column column element :: deeper } := by
  refine ⟨h.closed, by simp [h.counted], fun entry he => ?_, fun other member hmember => ?_⟩
  · rcases List.mem_append.mp he with he | he
    · exact h.named entry he
    · rw [List.mem_singleton.mp he]
      exact ⟨name, element, hname, helement⟩
  · have hrest := hdeeper member (container?_of_prop? hmember).1
    rw [List.findSome?_append, h.first other member hmember, columnNamed?, columnNamed?,
      List.find?_append, Option.map_or, List.findSome?_cons, List.find?_singleton, hname, hrest]
    by_cases hsame : name = other
    · subst hsame
      obtain rfl := Option.some.inj (helement.symm.trans hmember)
      simp [TopologyLink.columnFor?]
    · have hne : element ≠ member := fun heq =>
        hsame (prop?_unique helement hmember .refl (heq ▸ .refl)).1
      simp [TopologyLink.columnFor?, hne, hsame]

/-- Without tolerance, a column that is neither a wildcard nor inlined counts. -/
theorem Tallied.step (h : doc.Tallied elements done walk)
    (hstrict : options.toleratePartial = false) (hwild : doc.isWildcard column = false)
    (hinline : doc.hasProp column "inline" = false)
    (hstep : doc.ColumnStep options elements "" number walk column position walk') :
    doc.Tallied elements (done ++ [(column, position)]) walk' := by
  have hkey : ∀ {name}, doc.columnKey elements "" number position column walk.wildcard = .ok name →
      doc.resultName? elements (column, position) = some name := by
    intro name hname
    rw [h.closed] at hname
    exact resultName?_of_columnKey hname
  cases hstep with
  | wildcard hwild' => rw [hwild] at hwild'; cases hwild'
  | skipped ht _ => rw [hstrict] at ht; cases ht
  | inlined _ _ hlist _ => rw [hasProp, hlist] at hinline; cases hinline
  | member _ hname _ helement =>
    rw [String.empty_append] at helement
    exact h.add (hkey hname) helement fun _ _ => rfl
  | @expanded name element list inside rest _ hname _ helement _ hinside hin =>
    rw [String.empty_append] at helement
    refine h.add (hkey hname) helement fun member hm => ?_
    rw [List.findSome?_eq_none_iff]
    intro link hl
    refine Option.eq_none_iff_forall_ne_some.mpr fun other hother => ?_
    obtain rfl := columnFor?_eq_some.mp hother
    obtain ⟨_, _, heq, _, hw⟩ := (columnLinks_linkColumns hin).shape _ hl
    cases heq
    exact not_within_expandedElements? hm (container?_of_prop? helement).1 hinside hw

/-- All columns of a list count. -/
theorem tallied_linkColumns (hstrict : options.toleratePartial = false) {columns : NodeId}
    (hplain : ∀ item ∈ doc.itemsAt columns, doc.isWildcard item = false ∧
      doc.hasProp item "inline" = false)
    (h : doc.linkColumns options elements "" number columns = .ok walk) :
    doc.Tallied elements (doc.itemsAt columns).zipIdx walk := by
  have hstart : doc.Tallied elements [] {} :=
    ⟨rfl, rfl, fun _ he => (by cases he), fun _ _ _ => rfl⟩
  have hend := linkColumns_rest (fun rest walk => ∃ done, (doc.itemsAt columns).zipIdx =
    done ++ rest ∧ doc.Tallied elements done walk) ⟨[], rfl, hstart⟩ ?_ h
  · obtain ⟨done, heq, htally⟩ := hend
    rw [heq, List.append_nil]
    exact htally
  · rintro column position rest walk walk' hitem ⟨done, heq, htally⟩ hstep
    obtain ⟨hwild, hinline⟩ := hplain column hitem
    refine ⟨done ++ [(column, position)], ?_, htally.step hstrict hwild hinline hstep⟩
    rw [heq, List.append_assoc]
    rfl

end Tally

/-! ## Members and distinct names -/

section Missing

variable {elements : NodeId} {done : List (NodeId × Nat)}

variable (doc) in
/-- The members that no column is named like. -/
def unnamedMembers (elements : NodeId) (done : List (NodeId × Nat)) : List (String × NodeId) :=
  (doc.entries elements).filter fun member => (doc.columnNamed? elements done member.1).isNone

theorem isSome_columnNamed?_iff {name : String} :
    (doc.columnNamed? elements done name).isSome = true ↔
    some name ∈ done.map (doc.resultName? elements) := by
  simp only [columnNamed?, Option.isSome_map, List.find?_isSome, beq_iff_eq, List.mem_map]

/-- Every name accounts for one member. -/
theorem length_unnamedMembers
    (hnamed : ∀ entry ∈ done, ∃ name member, doc.resultName? elements entry = some name ∧
      doc.prop? elements name = some member) :
    (doc.unnamedMembers elements done).length + (done.map (doc.resultName? elements)).dedup.length =
      (doc.entries elements).length := by
  obtain ⟨named, hdef⟩ : ∃ named, named = (doc.entries elements).filter fun member =>
      (doc.columnNamed? elements done member.1).isSome := ⟨_, rfl⟩
  have hperm : (named.map fun member => some member.1).Perm
      (done.map (doc.resultName? elements)).dedup := by
    refine (List.perm_ext_iff_of_nodup ?_ (List.nodup_dedup _)).mpr fun name => ?_
    · have hkeys : ((doc.entries elements).map Prod.fst).Nodup := doc.nodup_keys_entries elements
      have hsub : named.Sublist (doc.entries elements) := hdef ▸ List.filter_sublist
      have hnames := (hkeys.sublist (hsub.map Prod.fst)).map fun _ _ h => Option.some.inj h
      rwa [List.map_map] at hnames
    · rw [List.mem_dedup, List.mem_map]
      constructor
      · rintro ⟨member, hmem, rfl⟩
        rw [hdef] at hmem
        exact isSome_columnNamed?_iff.mp (List.mem_filter.mp hmem).2
      · intro hname
        obtain ⟨entry, hentry, rfl⟩ := List.mem_map.mp hname
        obtain ⟨name, member, hresult, hmember⟩ := hnamed entry hentry
        rw [hresult] at hname
        refine ⟨(name, member), ?_, hresult.symm⟩
        rw [hdef]
        exact List.mem_filter.mpr ⟨mem_entries_of_prop? hmember, isSome_columnNamed?_iff.mpr hname⟩
  have hrest : doc.unnamedMembers elements done = (doc.entries elements).filter fun member =>
      !(doc.columnNamed? elements done member.1).isSome := by
    simp only [unnamedMembers, Option.not_isSome]
  rw [← hperm.length_eq, List.length_map, hrest, hdef, Nat.add_comm]
  exact (List.length_eq_length_filter_add _).symm

/-- With distinct names, no member is left if there are enough columns. -/
theorem unnamedMembers_of_nodup
    (hnamed : ∀ entry ∈ done, ∃ name member, doc.resultName? elements entry = some name ∧
      doc.prop? elements name = some member) (hcount : (doc.entries elements).length ≤ done.length)
    (hnodup : (done.map (doc.resultName? elements)).Nodup) :
    doc.unnamedMembers elements done = [] := by
  have hlength := length_unnamedMembers hnamed
  rw [hnodup.dedup, List.length_map] at hlength
  exact List.eq_nil_of_length_eq_zero (by omega)

end Missing

end Document

namespace Model

open CacheM

/-- In every session, the column of a member is the first that is linked with it. -/
theorem exec_elementColumn {m : Model} {s : Cache} (hs : Orderly m s) {definition : NodeId}
    {topology : Topology} {links : List TopologyLink}
    (hb : m.doc.buildTopology m.options definition = .ok (topology, links)) {element : NodeId}
    (ho : m.doc.owner? element = some definition) :
    (exec (m.elementColumn element) s).1 =
      .ok (links.findSome? (TopologyLink.columnFor? element)) := by
  obtain ⟨t, hfacts, heq⟩ := exec_preparedFact hs .column ho hb
  rw [elementColumn, heq, hfacts.column element ho]

/-- A session has prepared a definition without tolerance, whose main query has columns without
wildcards and inlined ones. The column of a result member is the first one of its name. There are at
least as many columns as members, but as many members are without column as there are members in
excess of the distinct names. With distinct names there is none. -/
theorem members_have_first_column_of_name {m : Model} (hstrict : m.options.toleratePartial = false)
    {s : Cache} (hs : m.Reachable s) {definition : NodeId} {topology : Topology}
    (hp : (exec (m.prepare definition) s).1 = .ok topology) {scope : QueryScope}
    (hscope : topology.scope? 0 = some scope) {columns elements : NodeId}
    (hcolumns : m.doc.prop? scope.select "columns" = some columns)
    (helements : m.doc.prop? definition "elements" = some elements)
    (hplain : ∀ item ∈ m.doc.itemsAt columns,
      m.doc.isWildcard item = false ∧ m.doc.hasProp item "inline" = false) :
    (∀ name member, (name, member) ∈ m.doc.entries elements →
      (exec (m.elementColumn member) s).1 =
        .ok (m.doc.columnNamed? elements (m.doc.itemsAt columns).zipIdx name)) ∧
    (m.doc.entries elements).length ≤ (m.doc.itemsAt columns).length ∧
    (m.doc.unnamedMembers elements (m.doc.itemsAt columns).zipIdx).length +
        ((m.doc.itemsAt columns).zipIdx.map (m.doc.resultName? elements)).dedup.length =
      (m.doc.entries elements).length ∧
    (((m.doc.itemsAt columns).zipIdx.map (m.doc.resultName? elements)).Nodup →
      ∀ name member, (name, member) ∈ m.doc.entries elements →
        ∃ column, (exec (m.elementColumn member) s).1 = .ok (some column)) := by
  have horderly := (settled_of_reachable hs).agrees.orderly
  obtain ⟨hd, links, hb⟩ := buildTopology_of_prepare horderly hp
  obtain ⟨own, hown, _⟩ := Document.exists_sublist_of_scope hb hscope
  obtain ⟨walk, hwalk, rfl, hcount⟩ := hown.walk hcolumns helements
  have htally := Document.tallied_linkColumns hstrict hplain hwalk
  have hcount := hcount hstrict hplain
  rw [htally.counted, List.length_zipIdx] at hcount
  have hanswer : ∀ name member, (name, member) ∈ m.doc.entries elements →
      (exec (m.elementColumn member) s).1 =
      .ok (m.doc.columnNamed? elements (m.doc.itemsAt columns).zipIdx name) := by
    intro name member hmember
    have hmem := Document.within_of_container? (Document.container?_of_mem_entries hmember).1
    have hin :=
      (Document.within_of_container? (Document.container?_of_prop? helements).1).trans hmem
    rw [exec_elementColumn horderly hb (owner?_of_within hd hin), ← List.head?_filterMap]
    change Except.ok (Document.columnsFor member links).head? = _
    rw [Document.columnsFor_of_scope hb hscope hown helements hmem, Document.columnsFor,
      List.head?_filterMap, htally.first name member (Document.prop?_of_mem_entries hmember)]
  refine ⟨hanswer, hcount, Document.length_unnamedMembers htally.named,
    fun hnodup name member hmember => ?_⟩
  have hnone := Document.unnamedMembers_of_nodup htally.named (by simpa using hcount) hnodup
  rw [hanswer name member hmember]
  cases hcolumn : m.doc.columnNamed? elements (m.doc.itemsAt columns).zipIdx name with
  | some column => exact ⟨column, rfl⟩
  | none =>
    have hleft : (name, member) ∈ m.doc.unnamedMembers elements (m.doc.itemsAt columns).zipIdx :=
      List.mem_filter.mpr ⟨hmember, by rw [hcolumn]; rfl⟩
    rw [hnone] at hleft
    cases hleft

def repeatTopology : Topology where
  definition := 5
  queries :=
    [{ number := 1, node := 9, select := 10, aliases := [("E", .path 11)], elementsOwner := some 5,
       next := none }]
  queryTable := [(10, 0), (9, 0)]

/-- Where two columns have one name, the first of them is the column of the member, and one of two
members is without column. Where the only column of a query has the name of the only member, no
member is. -/
theorem repeated_name_leaves_one_member :
    (exec (repeatModel.prepare 5) Cache.empty).1 = .ok repeatTopology ∧
      (exec (repeatModel.elementColumn 7) Cache.empty).1 =
        .ok (repeatModel.doc.columnNamed? 6 [(15, 0), (18, 1)] "a") ∧
      (repeatModel.doc.unnamedMembers 6 [(15, 0), (18, 1)]).length + [some "a"].length = 2 ∧
      (exec (pairModel.prepare 5) Cache.empty).1 = .ok pairTopology ∧
      ∃ column, (exec (pairModel.elementColumn 7) Cache.empty).1 = .ok (some column) := by
  have hp : (exec (repeatModel.prepare 5) Cache.empty).1 = .ok repeatTopology :=
    eq_ok_of_toOption (by decide +kernel)
  have hcolumns : repeatModel.doc.prop? 10 "columns" = some 14 := by decide +kernel
  have helements : repeatModel.doc.prop? 5 "elements" = some 6 := by decide +kernel
  have hitems : repeatModel.doc.itemsAt 14 = [15, 18] := by decide +kernel
  obtain ⟨hfirst, _, hcount, _⟩ := members_have_first_column_of_name rfl .new hp (rfl : _ = some _)
    hcolumns helements (by decide +kernel)
  rw [hitems] at hfirst hcount
  have hp' : (exec (pairModel.prepare 5) Cache.empty).1 = .ok pairTopology :=
    eq_ok_of_toOption (by decide +kernel)
  have hcolumns' : pairModel.doc.prop? 12 "columns" = some 16 := by decide +kernel
  have helements' : pairModel.doc.prop? 5 "elements" = some 6 := by decide +kernel
  obtain ⟨_, _, _, hall⟩ := members_have_first_column_of_name rfl .new hp' (rfl : _ = some _)
    hcolumns' helements' (by decide +kernel)
  exact ⟨hp, hfirst "a" 7 (by decide +kernel), hcount, hp',
    hall (by decide +kernel) "a" 7 (by decide +kernel)⟩

/-- The view is accepted with a member that no column yields. -/
theorem member_without_column :
    repeatModel.options.toleratePartial = false ∧
    (exec (repeatModel.prepare 5) Cache.empty).1 = .ok repeatTopology ∧
    repeatModel.doc.prop? 10 "columns" = some 14 ∧ repeatModel.doc.itemsAt 14 = [15, 18] ∧
    (∀ item ∈ [15, 18], repeatModel.doc.isWildcard item = false ∧
      repeatModel.doc.hasProp item "inline" = false) ∧
    repeatModel.doc.prop? 5 "elements" = some 6 ∧ repeatModel.doc.entries 6 = [("a", 7), ("b", 8)] ∧
    (exec (repeatModel.elementColumn 7) Cache.empty).1 = .ok (some 15) ∧
    (exec (repeatModel.elementColumn 8) Cache.empty).1 = .ok none := by
  refine ⟨rfl, eq_ok_of_toOption ?_, ?_, ?_, ?_, ?_, ?_, eq_ok_of_toOption ?_,
    eq_ok_of_toOption ?_⟩ <;>
    decide +kernel

end Model

end SchemaRefs
