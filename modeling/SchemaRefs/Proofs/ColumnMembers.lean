import SchemaRefs.Proofs.Initialization
import SchemaRefs.Proofs.ResultOwners

/-!
# Columns and their result members

The columns of a query are linked when its sources have been visited. What the scope owns then is
what it was opened with: a `SET` gives it an owner of result elements only after the visit.
`Document.DrawnFrom` keeps track of the links of each scope, and of where each link comes from.

* `columns_linked_by_own_result_only`: in a definition that is accepted without tolerance, all
  columns of a query but wildcards and inlined ones have result members if its result elements are
  its own, and none has one if they are those of a `SET` around it;
* `arm_columns_without_members`: so the columns of the second arm of a union have none, and no error
  says so.
-/

namespace SchemaRefs

namespace Draft

/-- Scopes keep their `SELECT`s, and owners are not replaced. -/
def Preserves (before after : Draft) : Prop :=
  ∀ (i : Nat) scope, before.queries[i]? = some scope → ∃ scope', after.queries[i]? = some scope' ∧
    scope'.select = scope.select ∧
    ∀ owner, scope.elementsOwner = some owner → scope'.elementsOwner = some owner

theorem Retains.preserves {before after : Draft} (h : before.Retains after) :
    before.Preserves after := by
  intro i scope hs
  obtain ⟨scope', hs', hbasis⟩ := h.scopes i scope hs
  obtain ⟨_, hselect, hsame⟩ := QueryScope.basis_eq_iff.mp hbasis
  exact ⟨scope', hs', hselect, fun owner howner => hsame.trans howner⟩

theorem preserves_modifyScope (draft : Draft) (index : Nat) {f : QueryScope → QueryScope}
    (hf : ∀ scope, (f scope).select = scope.select ∧
      ∀ owner, scope.elementsOwner = some owner → (f scope).elementsOwner = some owner) :
    draft.Preserves (draft.modifyScope index f) := by
  intro i scope hs
  rw [getElem?_modifyScope, hs]
  split
  · exact ⟨f scope, rfl, hf scope⟩
  · exact ⟨scope, rfl, rfl, fun _ h => h⟩

end Draft

namespace Document

variable {doc : Document} {options : Options} {definition : NodeId} {visit : QueryVisit}
  {opened : Draft} {links : List TopologyLink} {index : Nat} {node select : NodeId}
  {scope : QueryScope}

/-! ## Columns without tolerance -/

section Columns

variable {elements columns item : NodeId} {start : String} {number : Nat} {walk walk' : ColumnWalk}

variable (doc) in
/-- A column is linked with a member, which is that of its name if it has one. -/
def IsLinked (elements : NodeId) (start : String) (item : NodeId) (links : List TopologyLink) :
    Prop :=
  ∃ name member, doc.prop? elements (start ++ name) = some member ∧
    (∀ own, doc.columnName? item = some own → name = own) ∧ .column item member ∈ links

theorem IsLinked.mono {links' : List TopologyLink} (h : doc.IsLinked elements start item links)
    (hsub : ∀ link ∈ links, link ∈ links') : doc.IsLinked elements start item links' := by
  obtain ⟨name, member, hmember, hname, hl⟩ := h
  exact ⟨name, member, hmember, hname, hsub _ hl⟩

/-- Without tolerance, a column that is neither a wildcard nor inlined is linked. -/
theorem ColumnStep.isLinked (hstrict : options.toleratePartial = false)
    (hwild : doc.isWildcard item = false) (hinline : doc.prop? item "inline" = none)
    {position : Nat} (h : doc.ColumnStep options elements start number walk item position walk') :
    doc.IsLinked elements start item walk'.links := by
  have hkey : ∀ {name}, doc.columnKey elements start number position item walk.wildcard = .ok name →
      ∀ own, doc.columnName? item = some own → name = own := by
    intro name hname own hown
    rw [columnKey, hown] at hname
    cases hname
    rfl
  cases h with
  | wildcard hwild' => rw [hwild] at hwild'; cases hwild'
  | skipped ht _ => rw [hstrict] at ht; cases ht
  | inlined _ _ hlist _ => rw [hinline] at hlist; cases hlist
  | member _ hname _ hmember =>
    exact ⟨_, _, hmember, hkey hname, List.mem_append_right _ List.mem_cons_self⟩
  | expanded _ hname _ hmember _ _ _ =>
    exact ⟨_, _, hmember, hkey hname, List.mem_append_right _ List.mem_cons_self⟩

/-- Without tolerance, every column of a list that is neither a wildcard nor inlined is linked. -/
theorem isLinked_linkColumns (hstrict : options.toleratePartial = false)
    (h : doc.linkColumns options elements start number columns = .ok walk)
    (hitem : item ∈ doc.itemsAt columns) (hwild : doc.isWildcard item = false)
    (hinline : doc.prop? item "inline" = none) :
    doc.IsLinked elements start item walk.links := by
  have hstart : ∃ position, (item, position) ∈ (doc.itemsAt columns).zipIdx := by
    obtain ⟨position, hposition⟩ := List.mem_iff_getElem?.mp hitem
    exact ⟨position, List.mk_mem_zipIdx_iff_getElem?.mpr hposition⟩
  -- the column is left, or it is linked
  have hend := linkColumns_rest (fun rest walk => (∃ position, (item, position) ∈ rest) ∨
    doc.IsLinked elements start item walk.links) (.inl hstart) ?_ h
  · rcases hend with ⟨_, hmem⟩ | hlinked
    · cases hmem
    · exact hlinked
  · rintro column position rest walk walk' _ (⟨position', hmem⟩ | hlinked) hstep
    · rcases List.mem_cons.mp hmem with heq | hmem
      · cases heq
        exact .inr (hstep.isLinked hstrict hwild hinline)
      · exact .inl ⟨position', hmem⟩
    · exact .inr (hlinked.mono fun link hl => hstep.mem_links hl)

end Columns

/-! ## The links of a scope when it was opened -/

/-- The node whose elements are the own results of a scope: of the main query it is the
definition. -/
def carrier (definition : NodeId) (index : Nat) (select : NodeId) : NodeId :=
  if index = 0 then definition else select

variable (doc options definition) in
/-- The links of the columns of a `SELECT` whose scope has what it was opened with. -/
def LinksColumns (index : Nat) (select : NodeId) (links : List TopologyLink) : Prop :=
  ∃ scope : QueryScope, scope.basis =
    (index + 1, select, doc.declaring? (carrier definition index select)) ∧
    doc.scopeLinks options scope = .ok links

section LinksColumns

variable {index : Nat} {select : NodeId} {links : List TopologyLink}

theorem LinksColumns.isColumn (h : doc.LinksColumns options definition index select links)
    {column element : NodeId} (hl : .column column element ∈ links) :
    doc.IsColumn select column := by
  obtain ⟨scope, hbasis, hlinks⟩ := h
  obtain ⟨_, _, heq, hcolumn⟩ := (columns_of_scopeLinks hlinks).1 _ hl
  cases heq
  obtain ⟨_, hselect, _⟩ := QueryScope.basis_eq_iff.mp hbasis
  exact hselect ▸ hcolumn

theorem LinksColumns.eq_nil (h : doc.LinksColumns options definition index select links)
    (hown : doc.declaring? (carrier definition index select) = none) : links = [] := by
  obtain ⟨scope, hbasis, hlinks⟩ := h
  obtain ⟨_, _, howner⟩ := QueryScope.basis_eq_iff.mp hbasis
  have helements : scope.elements? doc = none := by rw [QueryScope.elements?, howner, hown]; rfl
  rw [scopeLinks, helements] at hlinks
  split at hlinks
  · next heq => cases heq
  · cases hlinks
    rfl

/-- Without tolerance, a scope with results of its own links its columns. -/
theorem LinksColumns.isLinked (h : doc.LinksColumns options definition index select links)
    (hstrict : options.toleratePartial = false) {owner elements columns item : NodeId}
    (hown : doc.declaring? (carrier definition index select) = some owner)
    (helements : doc.prop? owner "elements" = some elements)
    (hcolumns : doc.prop? select "columns" = some columns) (hitem : item ∈ doc.itemsAt columns)
    (hwild : doc.isWildcard item = false) (hinline : doc.prop? item "inline" = none) :
    doc.IsLinked elements "" item links := by
  obtain ⟨scope, hbasis, hlinks⟩ := h
  obtain ⟨_, hselect, howner⟩ := QueryScope.basis_eq_iff.mp hbasis
  have hresult : scope.elements? doc = some elements := by
    rw [QueryScope.elements?, howner, hown]
    exact helements
  rw [scopeLinks, hselect, hcolumns, hresult] at hlinks
  cases hwalk : doc.linkColumns options elements "" scope.number columns with
  | error e =>
    simp only [hwalk] at hlinks
    cases hlinks
  | ok walk =>
    simp only [hwalk, bind, Except.bind] at hlinks
    split at hlinks
    · cases hlinks
    · cases hlinks
      exact isLinked_linkColumns hstrict hwalk hitem hwild hinline

end LinksColumns

/-! ## Links in a draft -/

variable (doc options definition) in
/-- Among `links` are those of the columns of a scope, in order. It still owns what it was opened
with. -/
def Draws (i : Nat) (scope : QueryScope) (links : List TopologyLink) : Prop :=
  (∃ own, doc.LinksColumns options definition i scope.select own ∧ own.Sublist links) ∧
    ∀ owner, doc.declaring? (carrier definition i scope.select) = some owner →
    scope.elementsOwner = some owner

theorem Draws.preserve {i : Nat} {scope' : QueryScope} {links' : List TopologyLink}
    (h : doc.Draws options definition i scope links) (hselect : scope'.select = scope.select)
    (howner : ∀ owner, scope.elementsOwner = some owner → scope'.elementsOwner = some owner)
    (hsub : links.Sublist links') : doc.Draws options definition i scope' links' := by
  obtain ⟨⟨own, hown, hlinks⟩, hkept⟩ := h
  rw [Draws, hselect]
  exact ⟨⟨own, hown, hlinks.trans hsub⟩, fun owner hd => howner owner (hkept owner hd)⟩

variable (doc options definition) in
/-- Since the links were `base`, each scope from the index `low` on has linked its columns, and no
others were. -/
structure DrawnFrom (low : Nat) (base : List TopologyLink) (draft : Draft) : Prop where
  le : low ≤ draft.queries.length
  links : ∃ new, draft.links = base ++ new ∧
    (∀ i scope, low ≤ i → draft.queries[i]? = some scope →
      doc.Draws options definition i scope new) ∧
    ∀ column element, .column column element ∈ new → ∃ i scope own, low ≤ i ∧
      draft.queries[i]? = some scope ∧ doc.LinksColumns options definition i scope.select own ∧
      .column column element ∈ own

section Drawing

variable {low : Nat} {base : List TopologyLink} {draft after : Draft}

theorem drawnFrom_of_length_eq (more : List TopologyLink)
    (hlength : after.queries.length = draft.queries.length)
    (hlinks : after.links = draft.links ++ more)
    (hmore : ∀ column element, .column column element ∉ more) :
    doc.DrawnFrom options definition draft.queries.length draft.links after := by
  refine ⟨Nat.le_of_eq hlength.symm, more, hlinks, fun i scope hle hs => ?_,
    fun column element hl => ?_⟩
  · exact absurd (List.getElem?_eq_some_iff.mp hs).1 (by omega)
  · exact absurd hl (hmore column element)

/-- More scopes have linked their columns. -/
theorem DrawnFrom.trans (h : doc.DrawnFrom options definition low base draft)
    (h' : doc.DrawnFrom options definition draft.queries.length draft.links after)
    (hp : draft.Preserves after) : doc.DrawnFrom options definition low base after := by
  obtain ⟨new, hnew, hdraws, hfrom⟩ := h.links
  obtain ⟨new', hnew', hdraws', hfrom'⟩ := h'.links
  refine ⟨Nat.le_trans h.le h'.le, new ++ new', by rw [hnew', hnew, List.append_assoc],
    fun i scope hle hs => ?_, fun column element hl => ?_⟩
  · rcases Nat.lt_or_ge i draft.queries.length with hlt | hge
    · have hold := List.getElem?_eq_getElem hlt
      obtain ⟨scope', hs', hselect, howner⟩ := hp i _ hold
      rw [hs] at hs'
      cases hs'
      exact (hdraws i _ hle hold).preserve hselect howner (List.sublist_append_left ..)
    · exact (hdraws' i scope hge hs).preserve rfl (fun _ h => h) (List.sublist_append_right ..)
  · rcases List.mem_append.mp hl with hl | hl
    · obtain ⟨i, scope, own, hle, hs, hown, hmem⟩ := hfrom column element hl
      obtain ⟨scope', hs', hselect, _⟩ := hp i scope hs
      exact ⟨i, scope', own, hle, hs', hselect ▸ hown, hmem⟩
    · obtain ⟨i, scope, own, hle, hs, hown, hmem⟩ := hfrom' column element hl
      exact ⟨i, scope, own, Nat.le_trans h.le hle, hs, hown, hmem⟩

theorem DrawnFrom.modifyScope (h : doc.DrawnFrom options definition low base draft) (index : Nat)
    {f : QueryScope → QueryScope} (hf : ∀ scope, (f scope).select = scope.select ∧
      ∀ owner, scope.elementsOwner = some owner → (f scope).elementsOwner = some owner) :
    doc.DrawnFrom options definition low base (draft.modifyScope index f) := by
  refine h.trans (drawnFrom_of_length_eq [] (List.length_modify ..) (List.append_nil _).symm ?_)
    (draft.preserves_modifyScope index hf)
  exact fun _ _ => List.not_mem_nil

theorem DrawnFrom.addParent (h : doc.DrawnFrom options definition low base draft)
    (member parent : NodeId) :
    doc.DrawnFrom options definition low base (draft.addLinks [.parent member parent]) := by
  refine h.trans (drawnFrom_of_length_eq [.parent member parent] rfl rfl
    fun column element hl => ?_)
    fun i scope hs => ⟨scope, hs, rfl, fun _ h => h⟩
  cases List.mem_singleton.mp hl

/-- A scope that has what it was opened with links its columns. -/
theorem DrawnFrom.own (h : doc.DrawnFrom options definition (low + 1) base draft)
    {scope : QueryScope} (hs : draft.queries[low]? = some scope)
    (hbasis : scope.basis = (low + 1, scope.select,
      doc.declaring? (carrier definition low scope.select))) {own : List TopologyLink}
    (hlinks : doc.scopeLinks options scope = .ok own) :
    doc.DrawnFrom options definition low base (draft.addLinks own) := by
  have hown : doc.LinksColumns options definition low scope.select own := ⟨scope, hbasis, hlinks⟩
  obtain ⟨_, _, howner⟩ := QueryScope.basis_eq_iff.mp hbasis
  obtain ⟨new, hnew, hdraws, hfrom⟩ := h.links
  refine ⟨Nat.le_of_succ_le h.le, new ++ own, by rw [Draft.addLinks, hnew, List.append_assoc],
    fun i scope' hle hs' => ?_, fun column element hl => ?_⟩
  · rcases Nat.lt_or_eq_of_le hle with hlt | rfl
    · exact (hdraws i scope' hlt hs').preserve rfl (fun _ h => h) (List.sublist_append_left ..)
    · cases hs.symm.trans hs'
      exact ⟨⟨own, hown, List.sublist_append_right ..⟩, fun owner hd => howner.trans hd⟩
  · rcases List.mem_append.mp hl with hl | hl
    · obtain ⟨i, scope', own', hle, hs', hown', hmem⟩ := hfrom column element hl
      exact ⟨i, scope', own', Nat.le_of_succ_le hle, hs', hown', hmem⟩
    · exact ⟨low, scope, own, Nat.le_refl low, hs, hown, hl⟩

/-! ## Links after a visit -/

variable (doc options definition) in
/-- All scopes that visits open link their columns. -/
def VisitsDraw (visit : QueryVisit) : Prop :=
  ∀ before node next isMain, isMain = decide (before.queries.length = 0) →
    Builds (visit node next isMain) before fun _ after =>
      doc.DrawnFrom options definition before.queries.length before.links after

/-- Mixins are linked, but no columns. -/
theorem builds_bindMixins_drawnFrom
    (h : opened.Retains draft ∧ doc.DrawnFrom options definition low base draft) :
    Builds (doc.bindMixins index select) draft fun _ after =>
      opened.Retains after ∧ doc.DrawnFrom options definition low base after := by
  unfold bindMixins
  split
  · refine Builds.forM (fun _ draft => opened.Retains draft ∧
      doc.DrawnFrom options definition low base draft)
      (fun mixin _ draft h => Builds.modify ⟨?_, ?_⟩) _ _ h
    · exact Draft.Retains.modifyScope (b := draft.addLinks _)
        (h.1.trans (.of_queries rfl fun _ _ h => h)) (.inr fun _ => rfl)
    · exact (h.2.addParent _ _).modifyScope index fun _ => ⟨rfl, fun _ h => h⟩
  · exact Builds.pure h

theorem builds_linkScope_drawnFrom (hs : opened.queries[index]? = some scope)
    (hbasis : scope.basis = (index + 1, select, doc.declaring? (carrier definition index select)))
    (h : opened.Retains draft ∧ doc.DrawnFrom options definition (index + 1) base draft) :
    Builds (doc.linkScope options index) draft fun _ after =>
      opened.Retains after ∧ doc.DrawnFrom options definition index base after := by
  obtain ⟨here, hhere, hsame⟩ := h.1.scopes index scope hs
  have hbasis := hsame.trans hbasis
  obtain ⟨_, hselect, _⟩ := QueryScope.basis_eq_iff.mp hbasis
  refine Builds.get_bind ?_
  rw [hhere]
  exact Builds.lift_bind fun links hlinks => Builds.modify
    ⟨h.1.trans (.of_queries rfl fun _ _ h => h), h.2.own hhere (hselect ▸ hbasis) hlinks⟩

/-- Handing on an owner replaces none. -/
theorem elementsOwner_inheritOwner {owner : Option NodeId} {own : NodeId}
    (h : scope.elementsOwner = some own) : (inheritOwner owner scope).elementsOwner = some own := by
  rw [inheritOwner, h]
  rfl

theorem DrawnFrom.shareScope (h : doc.DrawnFrom options definition low base draft)
    (node set : NodeId) (leading : Nat) :
    doc.DrawnFrom options definition low base (doc.shareScope node set leading draft) := by
  have hassign : doc.DrawnFrom options definition low base
      ((draft.assign node leading).assign set leading) :=
    ⟨h.le, h.links⟩
  exact hassign.modifyScope leading fun _ => ⟨rfl, fun _ => elementsOwner_inheritOwner⟩

section Visits

variable (hv : doc.VisitsEndow definition visit) (hd : doc.VisitsDraw options definition visit)

include hv hd

theorem builds_inner {i : Nat} (hs : opened.queries[i]? = some scope) (hr : opened.Retains draft)
    (query : NodeId) (next : Option Nat) :
    Builds (visit query next false) draft fun index after =>
      opened.queries.length ≤ index ∧ draft.Retains after ∧
      doc.DrawnFrom options definition draft.queries.length draft.links after := by
  intro index after hrun
  obtain ⟨_, he⟩ := hv.inner hs hr query next index after hrun
  exact ⟨he.index_eq ▸ hr.length_le, he.retains, hd draft query next false (hr.false_eq_decide hs)
    index after hrun⟩

theorem carries_drawnFrom
    (hs : opened.queries[index]? = some scope) (low : Nat) (base : List TopologyLink) :
    Carries visit index fun _ draft =>
      opened.Retains draft ∧ doc.DrawnFrom options definition low base draft where
  query query rest draft hI := by
    refine (builds_inner hv hd hs hI.1 query (some index)).mono fun _ after h => ?_
    exact ⟨hI.1.trans h.2.1, hI.2.trans h.2.2 h.2.1.preserves⟩
  scope rest draft f hshape _ howner hI := by
    refine ⟨hI.1.modifyScope (.inr fun scope => ?_), hI.2.modifyScope index fun scope => ⟨?_, ?_⟩⟩
    · exact QueryScope.basis_eq_of_shape (hshape scope) (howner scope)
    · exact congrArg ScopeShape.select (hshape scope)
    · exact fun owner h => (howner scope).trans h

/-- The scope of a `SELECT` links its columns between its sources and its expressions. -/
theorem drawnFrom_visitSelect {next : Option Nat} {isMain : Bool} {before : Draft}
    (hflag : isMain = decide (before.queries.length = 0)) :
    Builds (doc.visitSelect options definition visit node select next isMain) before fun _ after =>
      doc.DrawnFrom options definition before.queries.length before.links after := by
  refine Builds.get_bind (Builds.modify_bind ?_)
  obtain ⟨scope, hs, hbasis⟩ : ∃ scope,
      (doc.openScope definition node select next isMain before).queries[before.queries.length]? =
        some scope ∧
      scope.basis = (before.queries.length + 1, select,
        doc.declaring? (carrier definition before.queries.length select)) := by
    refine ⟨_, List.getElem?_concat_length, ?_⟩
    simp [QueryScope.basis, carrier, declaring?, hflag]
  have hstart : doc.DrawnFrom options definition (before.queries.length + 1) before.links
      (doc.openScope definition node select next isMain before) := by
    have hlength : (doc.openScope definition node select next isMain before).queries.length =
        before.queries.length + 1 := List.length_append
    rw [← hlength]
    exact drawnFrom_of_length_eq [] rfl (List.append_nil _).symm fun _ _ => List.not_mem_nil
  have hcarries := carries_drawnFrom hv hd hs
  refine Builds.bind (@Carries.visitSources _ _ _ _ _ [] _
    (hcarries (before.queries.length + 1) before.links) ⟨.refl _, hstart⟩)
      fun _ sourced hsourced => ?_
  refine Builds.bind (builds_bindMixins_drawnFrom hsourced) fun _ mixed hmixed => ?_
  refine Builds.bind (builds_linkScope_drawnFrom hs hbasis hmixed) fun _ linked hlinked => ?_
  exact Builds.bind ((hcarries _ before.links).visitExpressions _ hlinked) fun _ after h =>
    Builds.pure h.2

theorem drawnFrom_visitSet {set : NodeId} {next : Option Nat} {isMain : Bool} {before : Draft}
    (hset : doc.prop? node "SET" = some set) (hflag : isMain = decide (before.queries.length = 0)) :
    Builds (doc.visitSet visit node set next isMain) before fun _ after =>
      doc.DrawnFrom options definition before.queries.length before.links after := by
  unfold visitSet
  split
  · exact Builds.throw _ _
  · next first later hargs =>
    have hfirst : Builds (visit first next isMain) before fun leading mid =>
        doc.Endows definition before first isMain leading mid ∧
          doc.DrawnFrom options definition before.queries.length before.links mid :=
      fun leading mid hrun =>
        ⟨hv before first next isMain hflag leading mid hrun,
          hd before first next isMain hflag leading mid hrun⟩
    refine Builds.bind hfirst fun leading mid hmid => Builds.modify_bind ?_
    obtain ⟨he, hdrawn⟩ := hmid
    obtain ⟨scope, hs, _⟩ := he.lead_shareScope hset hargs
    refine Builds.bind (Builds.forM (fun _ draft =>
      (doc.shareScope node set leading mid).Retains draft ∧
      doc.DrawnFrom options definition before.queries.length before.links draft)
      (fun arm _ draft hI => ?_) later _ ⟨.refl _, hdrawn.shareScope node set leading⟩)
      fun _ after h => Builds.pure h.2
    refine Builds.bind (builds_inner hv hd hs hI.1 arm next) fun index after h =>
      Builds.modify ⟨?_, ?_⟩
    · exact (hI.1.trans h.2.1).modifyScope (.inl h.1)
    · exact (hI.2.trans h.2.2 h.2.1.preserves).modifyScope index fun _ =>
        ⟨rfl, fun _ => elementsOwner_inheritOwner⟩

end Visits

end Drawing

variable (doc) in
theorem visitsDraw_visitQuery (options : Options) (definition : NodeId) (depth : Nat) :
    doc.VisitsDraw options definition (doc.visitQuery options definition depth) := by
  induction depth with
  | zero => exact fun _ _ _ _ _ => Builds.throw _ _
  | succ depth ih =>
    intro before node next isMain hflag
    have hv := visitsEndow_visitQuery doc options definition depth
    unfold visitQuery
    split
    · next set hset => exact drawnFrom_visitSet hv ih hset hflag
    · split
      · exact drawnFrom_visitSelect hv ih hflag
      · exact Builds.throw _ _

theorem drawnFrom_visitMain {start : Draft} (hq : start.queries = []) :
    Builds (doc.visitMain options definition) start fun _ after =>
      doc.DrawnFrom options definition 0 start.links after := by
  have hv := visitsEndow_visitQuery doc options definition maxQueryNesting
  have hd := visitsDraw_visitQuery doc options definition maxQueryNesting
  have hlength : start.queries.length = 0 := by rw [hq]; rfl
  have hflag : true = decide (start.queries.length = 0) := by rw [hlength]; rfl
  unfold visitMain
  split
  · refine Builds.pure ?_
    rw [← hlength]
    exact drawnFrom_of_length_eq [] rfl (List.append_nil _).symm fun _ _ => List.not_mem_nil
  · dsimp only
    rw [← hlength]
    split
    · exact Builds.bind (drawnFrom_visitSelect hv hd hflag) fun _ _ h => Builds.pure h
    · exact Builds.bind (hd start _ none true hflag) fun _ _ h => Builds.pure h

/-- The scopes of a topology have linked their columns, and no others were linked. -/
theorem drawnFrom_buildTopology {topology : Topology}
    (h : doc.buildTopology options definition = .ok (topology, links)) :
    doc.DrawnFrom options definition 0 (doc.memberLinks definition definition)
      ⟨topology.queries, topology.queryTable, links⟩ :=
  drawnFrom_visitMain rfl _ _ (run_visitMain_of_buildTopology h).2

theorem declaring?_eq_some_iff {owner : NodeId} :
    doc.declaring? node = some owner ↔ owner = node ∧ doc.hasProp node "elements" = true := by
  unfold declaring?
  split
  · next h => simp [h, eq_comm]
  · next h => simp [h]

section Topology

variable {topology : Topology} {links : List TopologyLink} {i : Nat} {scope : QueryScope}
  (hb : doc.buildTopology options definition = .ok (topology, links))
    (hs : topology.scope? i = some scope)

include hb hs

/-- Without tolerance, the columns of a scope that owns its results are linked. -/
theorem isLinked_of_own (hstrict : options.toleratePartial = false)
    (howner : scope.elementsOwner = some (carrier definition i scope.select))
    {elements columns item : NodeId} (helements : scope.elements? doc = some elements)
    (hcolumns : doc.prop? scope.select "columns" = some columns)
    (hitem : item ∈ doc.itemsAt columns) (hwild : doc.isWildcard item = false)
    (hinline : doc.prop? item "inline" = none) :
    doc.IsLinked elements "" item links := by
  obtain ⟨_, hhas⟩ := ((built_buildTopology hb).complete i scope hs).carrier _ howner
  rw [QueryScope.elements?, howner, Option.bind_some] at helements
  obtain ⟨new, hnew, hdraws, _⟩ := (drawnFrom_buildTopology hb).links
  obtain ⟨⟨own, hown, hsub⟩, _⟩ := hdraws i scope (Nat.zero_le i) hs
  refine (hown.isLinked hstrict (declaring?_eq_some_iff.mpr ⟨rfl, hhas⟩) helements
    hcolumns hitem hwild hinline).mono fun link hl => ?_
  rw [show links = doc.memberLinks definition definition ++ new from hnew]
  exact List.mem_append_right _ (hsub.subset hl)

/-- The columns of a scope that does not own its results are not linked. -/
theorem not_linked_of_not_own
    (howner : scope.elementsOwner ≠ some (carrier definition i scope.select))
    {column element : NodeId} (hcolumn : doc.IsColumn scope.select column) :
    .column column element ∉ links := by
  intro hl
  obtain ⟨new, hnew, hdraws, hfrom⟩ := (drawnFrom_buildTopology hb).links
  rw [show links = doc.memberLinks definition definition ++ new from hnew] at hl
  rcases List.mem_append.mp hl with hl | hl
  · obtain ⟨_, _, heq, _⟩ := declares_of_mem_memberLinks hl
    cases heq
  · obtain ⟨j, other, own, _, hj, hown, hmem⟩ := hfrom column element hl
    -- the link comes from the scope itself, since no other one has the column
    have hselect : other.select = scope.select := (hown.isColumn hmem).unique hcolumn
    have hsound := (built_buildTopology hb).sound
    have hsame : j = i := hsound.functional scope.select j i
      (hselect ▸ ((built_buildTopology hb).mem_of_scope hj).2)
        ((built_buildTopology hb).mem_of_scope hs).2
    subst hsame
    cases hs.symm.trans hj
    cases hd : doc.declaring? (carrier definition j scope.select) with
    | none =>
      rw [hown.eq_nil hd] at hmem
      cases hmem
    | some owner =>
      obtain ⟨rfl, _⟩ := declaring?_eq_some_iff.mp hd
      exact howner ((hdraws j scope (Nat.zero_le j) hs).2 _ hd)

end Topology

end Document

namespace Model

open CacheM

variable {m : Model} {s : Cache} {definition : NodeId} {topology : Topology}
  {links : List TopologyLink}

/-- In every session, a column has the member that it is linked with. -/
theorem exec_columnElement (hs : Orderly m s)
    (hb : m.doc.buildTopology m.options definition = .ok (topology, links)) {column : NodeId}
    (ho : m.doc.owner? column = some definition) :
    ∃ answer, (exec (m.columnElement column) s).1 = .ok answer ∧
      ∀ element, answer = some element ↔ .column column element ∈ links := by
  have hd := (Document.owner?_eq_some_iff.mp ho).1
  have hown : exec (m.ownerOf column) s = (.ok definition, s) := by
    rw [exec_ownerOf, ho]
  rcases prepare_cases hs hd with ⟨topology', links', t, hb', hex, ht, _, hget⟩ | ⟨e, hb', _⟩
  · rw [hb] at hb'
    cases hb'
    refine ⟨t.get? .element column, ?_, fun element =>
      (holdsFacts_of_orderly ht hb hget).element column element ho⟩
    rw [columnElement, preparedFact, exec_bind_ok hown, exec_bind_ok hex, exec_fact?]
  · rw [hb] at hb'
    cases hb'

theorem owner?_of_isColumn (hd : m.doc.isDefinition definition = true)
    (hb : m.doc.buildTopology m.options definition = .ok (topology, links)) {i : Nat}
    {scope : QueryScope} (hscope : topology.scope? i = some scope) {column : NodeId}
    (h : m.doc.IsColumn scope.select column) :
    m.doc.owner? column = some definition := by
  have hbuilt := Document.built_buildTopology hb
  obtain ⟨columns, hcolumns, hbelow⟩ := h
  have hselect := (hbuilt.within_of_mem (hbuilt.mem_of_scope hscope).2).1
  have hlist := Document.within_of_container? (Document.container?_of_prop? hcolumns).1
  exact owner?_of_within hd ((hselect.trans hlist).trans hbelow.within.1)

/-- A session has prepared a definition without tolerance. If the result elements of a query are its
own, or those of the definition for the main query, each of its columns that is neither a wildcard
nor inlined has a result member, that of its name if it has a name. If they are those of a `SET`
around it, or if there are none, no column of the query has a result member, on any level. -/
theorem columns_linked_by_own_result_only {m : Model} (hstrict : m.options.toleratePartial = false)
    {s : Cache} (hs : m.Reachable s) {definition : NodeId} {topology : Topology}
    (hp : (exec (m.prepare definition) s).1 = .ok topology) {i : Nat} {scope : QueryScope}
    (hscope : topology.scope? i = some scope) :
    (scope.elementsOwner = some (Document.carrier definition i scope.select) →
      ∀ elements columns item, scope.elements? m.doc = some elements →
        m.doc.prop? scope.select "columns" = some columns → item ∈ m.doc.itemsAt columns →
        m.doc.isWildcard item = false → m.doc.prop? item "inline" = none →
        ∃ name member, m.doc.prop? elements name = some member ∧
          (∀ own, m.doc.columnName? item = some own → name = own) ∧
          (exec (m.columnElement item) s).1 = .ok (some member)) ∧
    (scope.elementsOwner ≠ some (Document.carrier definition i scope.select) →
      ∀ column, m.doc.IsColumn scope.select column →
        (exec (m.columnElement column) s).1 = .ok none) := by
  have horderly := (settled_of_reachable hs).agrees.orderly
  obtain ⟨hd, links, hb⟩ := buildTopology_of_prepare horderly hp
  refine ⟨fun howner elements columns item helements hcolumns hitem hwild hinline => ?_,
    fun howner column hcolumn => ?_⟩
  · obtain ⟨name, member, hmember, hname, hl⟩ :=
      Document.isLinked_of_own hb hscope hstrict howner helements hcolumns hitem hwild hinline
    obtain ⟨answer, hex, hiff⟩ := exec_columnElement horderly hb
      (owner?_of_isColumn hd hb hscope ⟨columns, hcolumns, .item hitem⟩)
    rw [String.empty_append] at hmember
    exact ⟨name, member, hmember, hname, hex.trans (congrArg Except.ok ((hiff member).mpr hl))⟩
  · obtain ⟨answer, hex, hiff⟩ := exec_columnElement horderly hb
      (owner?_of_isColumn hd hb hscope hcolumn)
    cases answer with
    | none => exact hex
    | some element =>
      exact absurd ((hiff element).mp rfl) (Document.not_linked_of_not_own hb hscope howner hcolumn)

/-! ### Unions of queries over one element -/

/-- The first query of the view has the elements of the view; the first query of the inner union has
got the elements of that union, after its columns were linked. -/
theorem union_columns_linked_by_own_result_only :
    (exec ((⟨declaredDocument, {}⟩ : Model).prepare 5) Cache.empty).1 =
      .ok (nestedTopology (some 21) (some 21)) ∧
    (∃ name member, declaredDocument.prop? 6 name = some member ∧
      (∀ own, declaredDocument.columnName? 17 = some own → name = own) ∧
      (exec ((⟨declaredDocument, {}⟩ : Model).columnElement 17) Cache.empty).1 =
        .ok (some member)) ∧
    declaredDocument.hasProp 21 "elements" = true ∧
    (exec ((⟨declaredDocument, {}⟩ : Model).columnElement 29) Cache.empty).1 = .ok none := by
  have hp : (exec ((⟨declaredDocument, {}⟩ : Model).prepare 5) Cache.empty).1 =
      .ok (nestedTopology (some 21) (some 21)) := eq_ok_of_toOption (by decide +kernel)
  obtain ⟨hmain, _⟩ := columns_linked_by_own_result_only rfl .new hp
    (show (nestedTopology (some 21) (some 21)).scope? 0 = some _ from rfl)
  obtain ⟨_, hinner⟩ := columns_linked_by_own_result_only rfl .new hp
    (show (nestedTopology (some 21) (some 21)).scope? 1 = some _ from rfl)
  refine ⟨hp, hmain rfl 6 16 17 ?_ ?_ ?_ ?_ ?_, by decide +kernel,
    hinner (by decide) 29 ⟨28, ?_, .item ?_⟩⟩ <;>
    decide +kernel

/-- A view with elements, whose query is a union of two queries. -/
def pairModel : Model :=
  ⟨.ofDefinitions [
    ("E", .object [("elements", .object [("a", .object [])])]),
    ("V", .object [("elements", .object [("a", .object [])]),
      ("query", .object [("SET", .object [("args", .array [elementQuery, elementQuery])])])])], {}⟩

def pairTopology : Topology where
  definition := 5
  queries :=
    [{ number := 1, node := 11, select := 12, setNodes := [8], aliases := [("E", .path 13)],
       elementsOwner := some 5, next := none },
     { number := 2, node := 20, select := 21, aliases := [("E", .path 22)], elementsOwner := some 5,
       next := none }]
  queryTable := [(21, 1), (20, 1), (9, 0), (8, 0), (12, 0), (11, 0)]

/-- Both queries have the elements of the view. The column of the first one yields the element, and
that of the second one yields nothing, although its name is that of the element. -/
theorem arm_columns_without_members :
    pairModel.options.toleratePartial = false ∧
    (exec (pairModel.prepare 5) Cache.empty).1 = .ok pairTopology ∧
    (∀ scope ∈ pairTopology.queries, scope.elements? pairModel.doc = some 6) ∧
    pairModel.doc.prop? 21 "columns" = some 25 ∧ pairModel.doc.itemsAt 25 = [26] ∧
    pairModel.doc.isWildcard 26 = false ∧ pairModel.doc.hasProp 26 "inline" = false ∧
    pairModel.doc.columnName? 26 = some "a" ∧ pairModel.doc.prop? 6 "a" = some 7 ∧
    (exec (pairModel.columnElement 17) Cache.empty).1 = .ok (some 7) ∧
    (exec (pairModel.columnElement 26) Cache.empty).1 = .ok none := by
  refine ⟨rfl, eq_ok_of_toOption ?_, ?_, ?_, ?_, ?_, ?_, ?_, ?_, eq_ok_of_toOption ?_,
    eq_ok_of_toOption ?_⟩ <;>
    decide +kernel

end Model

end SchemaRefs
