import SchemaRefs.Proofs.Subqueries

/-!
# One column after the other

The columns of a list are linked one after the other, and with some of them the lists inside of
them. What one column can do is said once (`Document.ColumnStep`). What all columns of a list do is
then shown by an invariant that speaks of the columns that are left (`Document.linkColumns_rest`),
and for lists inside of lists by induction on the handle of the list.
-/

namespace SchemaRefs

namespace Document

variable {doc : Document} {options : Options}

/-! ## The columns of a list -/

/-- An invariant of a fold that speaks of the part of the list that is left. -/
theorem foldlM_rest {α β ε : Type} {f : β → α → Except ε β} (I : List α → β → Prop)
    (step : ∀ a rest b b', I (a :: rest) b → f b a = .ok b' → I rest b') :
    ∀ (l : List α) (b b' : β), I l b → l.foldlM f b = .ok b' → I [] b' := by
  intro l
  induction l with
  | nil =>
    intro b b' hb h
    cases h
    exact hb
  | cons a rest ih =>
    intro b b' hb h
    rw [List.foldlM_cons] at h
    cases hf : f b a with
    | error e => rw [hf] at h; cases h
    | ok c => rw [hf] at h; exact ih c b' (step a rest b c hb hf) h

variable (doc) in
/-- Links a column that has the member `element`; `inner` links the items of an expanded one. -/
def linkMember (options : Options) (inner : NodeId → String → NodeId → Except ModelError ColumnWalk)
    (full : String) (number : Nat) (column element : NodeId) (walk : ColumnWalk) :
    Except ModelError ColumnWalk :=
  let walk :=
    { walk with linked := walk.linked + 1, links := walk.links ++ [.column column element] }
  match doc.prop? column "expand" with
  | none => .ok walk
  | some expanded =>
    match doc.expandedElements? element with
    | none => doc.refuseColumn options column
        ("expanded column `" ++ full ++ "` of query " ++ toString number ++
          " has no result members") walk
    | some elements => do
      let rest ← inner elements "" expanded
      .ok { walk with links := walk.links ++ rest.links }

variable (doc) in
/-- Links one column, at a position; `inner` links the items of an inlined or expanded one. -/
def linkColumn (options : Options) (inner : NodeId → String → NodeId → Except ModelError ColumnWalk)
    (elements : NodeId) (start : String) (number : Nat) (walk : ColumnWalk) (entry : NodeId × Nat) :
    Except ModelError ColumnWalk :=
  if doc.isWildcard entry.1 then .ok { walk with wildcard := true }
  else
    match doc.columnKey elements start number entry.2 entry.1 walk.wildcard with
    | .error message => doc.refuseColumn options entry.1 message walk
    | .ok name =>
      match doc.prop? entry.1 "inline" with
      | some inlined => do
        let rest ← inner elements (start ++ name ++ "_") inlined
        .ok { walk with linked := walk.linked + rest.linked, links := walk.links ++ rest.links }
      | none =>
        match doc.prop? elements (start ++ name) with
        | none => doc.refuseColumn options entry.1
            ("column `" ++ (start ++ name) ++ "` of query " ++ toString number ++
              " has no result member")
            walk
        | some element => doc.linkMember options inner (start ++ name) number entry.1 element walk

/-- The columns of a list are linked one after the other. -/
theorem linkColumns_eq (elements : NodeId) (start : String) (number : Nat) (columns : NodeId) :
    doc.linkColumns options elements start number columns =
      (doc.itemsAt columns).zipIdx.foldlM
        (doc.linkColumn options (fun elements start columns =>
          doc.linkColumns options elements start number columns) elements start number) {} := by
  have hzip : (doc.itemsAt columns).zipIdx =
      (doc.itemsAt columns).attach.zipIdx.map fun p => (p.1.1, p.2) :=
    calc (doc.itemsAt columns).zipIdx
      _ = ((doc.itemsAt columns).attach.map Subtype.val).zipIdx
        := by rw [List.attach_map_subtype_val]
      _ = (doc.itemsAt columns).attach.zipIdx.map fun p =>
        (p.1.1, p.2) := by rw [List.zipIdx_map]; rfl
  rw [hzip, List.foldlM_map, linkColumns]
  congr 1
  funext walk p
  obtain ⟨⟨column, hc⟩, position⟩ := p
  unfold linkColumn linkMember
  dsimp only
  by_cases hw : doc.isWildcard column = true
  · rw [if_pos hw, if_pos hw]
  · rw [if_neg hw, if_neg hw]
    cases doc.columnKey elements start number position column walk.wildcard with
    | error message => rfl
    | ok name =>
      dsimp only
      cases doc.prop? column "inline" with
      | some inlined => rfl
      | none =>
        dsimp only
        cases doc.prop? elements (start ++ name) with
        | none => rfl
        | some element =>
          dsimp only
          cases doc.prop? column "expand" <;> rfl

/-! ## One column -/

variable (doc options) in
/-- What a column at a position does after the columns before it. -/
inductive ColumnStep (elements : NodeId) (start : String) (number : Nat) (walk : ColumnWalk)
    (column : NodeId) (position : Nat) : ColumnWalk → Prop where
  | wildcard : doc.isWildcard column = true →
      ColumnStep elements start number walk column position { walk with wildcard := true }
  | skipped : options.toleratePartial = true → doc.isWildcard column = false →
      ColumnStep elements start number walk column position walk
  | inlined {name : String} {list : NodeId} {rest : ColumnWalk} : doc.isWildcard column = false →
      doc.columnKey elements start number position column walk.wildcard = .ok name →
      doc.prop? column "inline" = some list →
      doc.linkColumns options elements (start ++ name ++ "_") number list = .ok rest →
      ColumnStep elements start number walk column position
        { walk with linked := walk.linked + rest.linked, links := walk.links ++ rest.links }
  | member {name : String} {element : NodeId} : doc.isWildcard column = false →
      doc.columnKey elements start number position column walk.wildcard = .ok name →
      doc.prop? column "inline" = none → doc.prop? elements (start ++ name) = some element →
      ColumnStep elements start number walk column position
        { walk with linked := walk.linked + 1, links := walk.links ++ [.column column element] }
  | expanded {name : String} {element list inside : NodeId} {rest : ColumnWalk} : doc.isWildcard
      column = false →
      doc.columnKey elements start number position column walk.wildcard = .ok name →
      doc.prop? column "inline" = none → doc.prop? elements (start ++ name) = some element →
      doc.prop? column "expand" = some list → doc.expandedElements? element = some inside →
      doc.linkColumns options inside "" number list = .ok rest →
      ColumnStep elements start number walk column position
        { walk with
          linked := walk.linked + 1, links := walk.links ++ .column column element :: rest.links }

section OneColumn

variable {elements column : NodeId} {start : String} {number position : Nat}
  {walk walk' : ColumnWalk}

theorem refuseColumn_eq_ok {message : String}
    (h : doc.refuseColumn options column message walk = .ok walk') :
    options.toleratePartial = true ∧ walk' = walk := by
  unfold refuseColumn at h
  split at h
  · next ht => cases h; exact ⟨ht, rfl⟩
  · cases h

theorem columnStep_of_linkColumn
    (h : doc.linkColumn options
      (fun elements start columns => doc.linkColumns options elements start number columns)
      elements start number walk (column, position) = .ok walk') :
    doc.ColumnStep options elements start number walk column position walk' := by
  unfold linkColumn at h
  dsimp only at h
  split at h
  · next hwild =>
    cases h
    exact .wildcard hwild
  · next hwild =>
    have hwild : doc.isWildcard column = false := by simpa using hwild
    split at h
    · obtain ⟨ht, rfl⟩ := refuseColumn_eq_ok h
      exact .skipped ht hwild
    · next name hname =>
      split at h
      · next list hlist =>
        cases hin : doc.linkColumns options elements (start ++ name ++ "_") number list with
        | error e =>
          rw [hin] at h
          cases h
        | ok rest =>
          rw [hin] at h
          cases h
          exact .inlined hwild hname hlist hin
      · next hinline =>
        split at h
        · obtain ⟨ht, rfl⟩ := refuseColumn_eq_ok h
          exact .skipped ht hwild
        · next element helement =>
          unfold linkMember at h
          dsimp only at h
          split at h
          · cases h
            exact .member hwild hname hinline helement
          · next list hlist =>
            split at h
            · obtain ⟨_, rfl⟩ := refuseColumn_eq_ok h
              exact .member hwild hname hinline helement
            · next inside hinside =>
              cases hin : doc.linkColumns options inside "" number list with
              | error e =>
                rw [hin] at h
                cases h
              | ok rest =>
                rw [hin] at h
                cases h
                rw [List.append_assoc]
                exact .expanded hwild hname hinline helement hlist hinside hin

theorem ColumnStep.mem_links
    (h : doc.ColumnStep options elements start number walk column position walk')
    {link : TopologyLink} (hl : link ∈ walk.links) : link ∈ walk'.links := by
  cases h with
  | wildcard | skipped => exact hl
  | inlined | member | expanded => exact List.mem_append_left _ hl

/-- An invariant that speaks of the columns that are left. -/
theorem linkColumns_rest {columns : NodeId} (I : List (NodeId × Nat) → ColumnWalk → Prop)
    (hstart : I (doc.itemsAt columns).zipIdx {})
    (hstep : ∀ column position rest walk walk', column ∈ doc.itemsAt columns →
      I ((column, position) :: rest) walk →
      doc.ColumnStep options elements start number walk column position walk' → I rest walk')
    (h : doc.linkColumns options elements start number columns = .ok walk) : I [] walk := by
  rw [linkColumns_eq] at h
  have hitems : ∀ entry ∈ (doc.itemsAt columns).zipIdx, entry.1 ∈ doc.itemsAt columns :=
    fun _ he => List.fst_mem_of_mem_zipIdx he
  refine (foldlM_rest (fun rest walk => (∀ entry ∈ rest, entry.1 ∈ doc.itemsAt columns) ∧
    I rest walk) ?_ _ _ _ ⟨hitems, hstart⟩ h).2
  rintro ⟨column, position⟩ rest walk walk' ⟨hrest, hI⟩ hlink
  exact ⟨fun entry he => hrest entry (List.mem_cons_of_mem _ he),
    hstep column position rest walk walk' (hrest _ List.mem_cons_self) hI
      (columnStep_of_linkColumn hlink)⟩

theorem pairwise_zipIdx_itemsAt {columns : NodeId} {R : NodeId → NodeId → Prop}
    (h : (doc.itemsAt columns).Pairwise R) :
    (doc.itemsAt columns).zipIdx.Pairwise fun a b => R a.1 b.1 := by
  rw [← List.zipIdx_map_fst 0 (doc.itemsAt columns), List.pairwise_map] at h
  exact h

end OneColumn

end Document

end SchemaRefs
