import Mathlib.Data.List.Nodup
import SchemaRefs.Proofs.Loading
import SchemaRefs.Proofs.Lockstep
import SchemaRefs.Proofs.Numbering
import SchemaRefs.Proofs.WellFormedTopologies

/-!
# Every fact is linked once

Each link of a topology is stored as one fact: the parent of a member, or the result member of a
column. A topology has a parent link for every member and for every mixin, and no two of its links
are about the same fact (`Document.Linked`).

Members lie in subtrees without common nodes, and columns are linked in the order of their handles
(`Document.ascending_linkColumns`). The links of queries are collected `SELECT` by `SELECT`
(`Document.LinksOf`): a mixin belongs to one `SELECT`, and so does a column, so that what two of
them contribute has nothing in common.
-/

namespace SchemaRefs

/-- The fact that a link is stored as. -/
def TopologyLink.fact : TopologyLink → FactKey × NodeId
  | .parent member _ => (.parent, member)
  | .column item _ => (.element, item)

namespace Document

variable {doc : Document} {links : List TopologyLink} {member owner parent select top : NodeId}
  {options : Options}

/-! ## Links within a subtree -/

variable (doc) in
/-- Links about nodes within `top`, each about a fact of its own. -/
structure LinksWithin (top : NodeId) (links : List TopologyLink) : Prop where
  within : ∀ link ∈ links, doc.Within top link.fact.2
  once : (links.map TopologyLink.fact).Nodup

theorem LinksWithin.cons {inner : NodeId} (link : TopologyLink) (h : doc.LinksWithin inner links)
    (hw : doc.Within link.fact.2 inner) (hne : ∀ other ∈ links, link.fact.2 ≠ other.fact.2) :
    doc.LinksWithin link.fact.2 (link :: links) := by
  refine ⟨fun other ho => ?_, ?_⟩
  · rcases List.mem_cons.mp ho with rfl | ho
    · exact .refl
    · exact hw.trans (h.within other ho)
  · rw [List.map_cons, List.nodup_cons]
    refine ⟨fun hmem => ?_, h.once⟩
    obtain ⟨other, ho, heq⟩ := List.mem_map.mp hmem
    exact hne other ho (congrArg Prod.snd heq.symm)

/-- Links within subtrees that have nothing in common. -/
theorem LinksWithin.flatMap {α : Type} {items : List α} {f : α → List TopologyLink}
    {r : α → NodeId → Prop} (hr : ∀ a ∈ items, ∀ node, r a node → doc.Within top node)
    (hp : items.Pairwise fun a b => ∀ x y, r a x → r b y → doc.Apart x y)
    (hf : ∀ a ∈ items, f a = [] ∨ ∃ node, r a node ∧ doc.LinksWithin node (f a)) :
    doc.LinksWithin top (items.flatMap f) := by
  refine ⟨fun link hl => ?_, ?_⟩
  · obtain ⟨a, ha, hl⟩ := List.mem_flatMap.mp hl
    rcases hf a ha with hnil | ⟨node, hn, hw⟩
    · rw [hnil] at hl
      cases hl
    · exact (hr a ha node hn).trans (hw.within link hl)
  · rw [List.map_flatMap, List.nodup_flatMap]
    refine ⟨fun a ha => ?_, hp.imp_of_mem fun {a b} ha hb hab fact hfa hfb => ?_⟩
    · rcases hf a ha with hnil | ⟨_, _, hw⟩
      · rw [hnil]
        exact List.nodup_nil
      · exact hw.once
    · obtain ⟨link, hl, rfl⟩ := List.mem_map.mp hfa
      obtain ⟨other, ho, heq⟩ := List.mem_map.mp hfb
      rcases hf a ha with hnil | ⟨x, hx, hwx⟩
      · rw [hnil] at hl
        cases hl
      · rcases hf b hb with hnil | ⟨y, hy, hwy⟩
        · rw [hnil] at ho
          cases ho
        · exact (hab x y hx hy).not_within (hwx.within link hl) (heq ▸ hwy.within other ho)

/-! ## Members -/

/-- The keys below which members are declared, in the order in which they are searched. -/
def memberPaths : List String :=
  memberKeys ++ ["items", "targetAspect", "returns"]

variable (doc) in
/-- The links of the members that a node declares below a key. -/
def linksUnder (owner top : NodeId) (key : String) : List TopologyLink :=
  if key ∈ memberKeys then (doc.propEntries owner key).flatMap (doc.linksOfMember top)
  else doc.linksOfPart owner key fun part => if key = "items" then top else part

theorem memberLinks_eq_flatMap (owner top : NodeId) :
    doc.memberLinks owner top = memberPaths.flatMap (doc.linksUnder owner top) := by
  have hmembers : memberKeys.flatMap (doc.linksUnder owner top) =
      memberKeys.flatMap fun key => (doc.propEntries owner key).flatMap (doc.linksOfMember top) :=
    List.flatMap_congr fun key hk => if_pos hk
  rw [memberLinks_eq, memberPaths, List.flatMap_append, hmembers, List.append_assoc,
    List.append_assoc]
  simp [linksUnder, memberKeys, Function.id_def]

/-- The links of members are about nodes below their owner, each about a node of its own. -/
theorem linksWithin_memberLinks (owner top : NodeId) :
    doc.LinksWithin owner (doc.memberLinks owner top) := by
  induction owner using descending_induction doc generalizing top with
  | step owner ih =>
    have hmember : ∀ {map : NodeId}, owner < map → ∀ entry ∈ doc.entries map,
        doc.LinksWithin entry.2 (doc.linksOfMember top entry) := by
      rintro map hlt ⟨name, member⟩ hentry
      have hm := lt_of_mem_entries hentry
      refine (ih member (Nat.lt_trans hlt hm.1) hm.2 member).cons (.parent member top) .refl ?_
      intro other ho heq
      obtain ⟨_, _, rfl, hd⟩ := declares_of_mem_memberLinks ho
      exact hd.within.2 heq
    rw [memberLinks_eq_flatMap]
    refine LinksWithin.flatMap (r := fun key node => doc.prop? owner key = some node)
      (fun key _ node hp => within_of_container? (container?_of_prop? hp).1) ?_ fun key _ => ?_
    · have hkeys : memberPaths.Nodup := by decide
      exact hkeys.imp fun hne x y hx hy => apart_of_prop? hx hy hne
    · unfold linksUnder
      split
      · cases hp : doc.prop? owner key with
        | none => exact .inl (by rw [propEntries, hp]; rfl)
        | some map =>
          refine .inr ⟨map, rfl, ?_⟩
          rw [propEntries, hp]
          refine LinksWithin.flatMap (r := fun entry node => entry.2 = node ∧
            entry ∈ doc.entries map) ?_ ?_ ?_
          · rintro ⟨name, _⟩ _ member ⟨rfl, hentry⟩
            exact within_of_container? (container?_of_mem_entries hentry).1
          · refine (doc.pairwise_entries map).imp fun hab x y hx hy => ?_
            obtain ⟨rfl, _⟩ := hx
            obtain ⟨rfl, _⟩ := hy
            exact hab.2
          · exact fun entry hentry =>
              .inr ⟨entry.2, ⟨rfl, hentry⟩, hmember (prop?_lt hp).1 entry hentry⟩
      · unfold linksOfPart
        cases hp : doc.objectProp? owner key with
        | none => exact .inl rfl
        | some part =>
          have hlt := prop?_lt (prop?_of_objectProp? hp)
          exact .inr ⟨part, prop?_of_objectProp? hp, ih part hlt.1 hlt.2 _⟩

/-- Every member has a link to its parent. -/
theorem Declares.mem_memberLinks (h : doc.Declares owner top member parent) :
    .parent member parent ∈ doc.memberLinks owner top := by
  have hunder : ∀ {owner top map : NodeId} {key : String} {entry : String × NodeId}
      {link : TopologyLink},
      key ∈ memberKeys → doc.prop? owner key = some map → entry ∈ doc.entries map →
      link ∈ doc.linksOfMember top entry → link ∈ doc.memberLinks owner top := by
    intro owner top map key entry link hkey hmap hentry hl
    rw [memberLinks_eq_flatMap, memberPaths, List.flatMap_append]
    refine List.mem_append_left _ (List.mem_flatMap.mpr ⟨key, hkey, ?_⟩)
    rw [linksUnder, if_pos hkey, propEntries, hmap]
    exact List.mem_flatMap.mpr ⟨entry, hentry, hl⟩
  induction h with
  | direct hkey hmap hm => exact hunder hkey hmap hm List.mem_cons_self
  | inner hkey hmap hm _ ih => exact hunder hkey hmap hm (List.mem_cons_of_mem _ ih)
  | @part owner top part partTop member parent key htop hpart _ ih =>
    rw [memberLinks_eq_flatMap]
    refine List.mem_flatMap.mpr ⟨key, ?_, ?_⟩
    · simpa [isMemberPath, memberPaths, or_assoc] using isMemberPath_of_partTop? htop
    · have hno : key ∉ memberKeys := fun hk => by
        rw [memberKeys_partTop? hk] at htop
        cases htop
      have heq : (if key = "items" then top else part) = partTop := by
        unfold partTop? at htop
        split at htop
        · next hk => rw [if_pos hk]; exact Option.some.inj htop
        · next hk =>
          rw [if_neg hk]
          split at htop
          · exact Option.some.inj htop
          · cases htop
      rw [linksUnder, if_neg hno, linksOfPart, hpart]
      dsimp only [Option.elim_some]
      rw [heq]
      exact ih

/-! ## Columns -/

variable (doc) in
/-- The links are in the order of the handles that they are about, which lie within `top`. -/
def Ascending (top : NodeId) (links : List TopologyLink) : Prop :=
  (∀ link ∈ links, doc.Within top link.fact.2) ∧ links.Pairwise fun a b => a.fact.2 < b.fact.2

theorem Ascending.up {inner : NodeId} (h : doc.Ascending inner links)
    (hw : doc.Within top inner) : doc.Ascending top links :=
  ⟨fun link hl => hw.trans (h.1 link hl), h.2⟩

theorem Ascending.once (h : doc.Ascending top links) :
    (links.map TopologyLink.fact).Nodup :=
  List.pairwise_map.mpr (h.2.imp fun hlt heq => Nat.ne_of_lt hlt (congrArg Prod.snd heq))

/-- A column adds links in order: its own, and those of the columns below it. -/
theorem ColumnStep.ascending {elements column : NodeId} {start : String} {number position : Nat}
    {walk walk' : ColumnWalk}
    (h : doc.ColumnStep options elements start number walk column position walk')
    (hinner : ∀ key list, doc.prop? column key = some list →
      ∀ elements start rest, doc.linkColumns options elements start number list = .ok rest →
      doc.Ascending list rest.links) :
    ∃ new, walk'.links = walk.links ++ new ∧ doc.Ascending column new := by
  cases h with
  | wildcard | skipped => exact ⟨[], (List.append_nil _).symm, by simp [Ascending]⟩
  | inlined _ _ hlist hin =>
    exact ⟨_, rfl, (hinner _ _ hlist _ _ _ hin).up
      (within_of_container? (container?_of_prop? hlist).1)⟩
  | member =>
    refine ⟨_, rfl, fun link hl => ?_, List.pairwise_singleton _ _⟩
    rw [List.mem_singleton.mp hl]
    exact .refl
  | expanded _ _ _ _ hlist _ hin =>
    have hrest := hinner _ _ hlist _ _ _ hin
    have hup := hrest.up (within_of_container? (container?_of_prop? hlist).1)
    refine ⟨_, rfl, fun link hl => ?_, List.pairwise_cons.mpr ⟨fun link hl => ?_, hrest.2⟩⟩
    · rcases List.mem_cons.mp hl with rfl | hl
      · exact .refl
      · exact hup.1 link hl
    · exact Nat.lt_of_lt_of_le (prop?_lt hlist).1 (hrest.1 link hl).le

/-- The columns of a list are linked in the order of their handles. -/
theorem ascending_linkColumns {number : Nat} {elements columns : NodeId} {start : String}
    {walk : ColumnWalk} (h : doc.linkColumns options elements start number columns = .ok walk) :
    doc.Ascending columns walk.links := by
  induction columns using descending_induction doc generalizing elements start walk with
  | step columns ih =>
    -- what is linked comes before the columns that are left
    let I : List (NodeId × Nat) → ColumnWalk → Prop := fun rest walk =>
      rest.Pairwise (fun a b => ∀ node, doc.Within a.1 node → node < b.1) ∧
        doc.Ascending columns walk.links ∧
        ∀ link ∈ walk.links, ∀ entry ∈ rest, link.fact.2 < entry.1
    have hstart : I (doc.itemsAt columns).zipIdx {} :=
      ⟨pairwise_zipIdx_itemsAt (doc.inOrder_itemsAt columns), by simp [Ascending],
        fun _ hl => by cases hl⟩
    refine (linkColumns_rest I hstart ?_ h).2.1
    rintro column position rest walk walk' hitem ⟨hp, hlinks, hbefore⟩ hstep
    obtain ⟨hfirst, hp⟩ := List.pairwise_cons.mp hp
    have hlt := (lt_of_mem_itemsAt hitem).1
    obtain ⟨new, hnew, hasc⟩ := hstep.ascending fun key list hkey elements start inner hin =>
      ih list (Nat.lt_trans hlt (prop?_lt hkey).1) (prop?_lt hkey).2 hin
    have hup := hasc.up (within_of_container? (container?_of_mem_itemsAt hitem).1)
    refine ⟨hp, ?_, fun link hl other ho => ?_⟩
    · rw [hnew]
      refine ⟨fun link hl => (List.mem_append.mp hl).elim (hlinks.1 link) (hup.1 link),
        List.pairwise_append.mpr ⟨hlinks.2, hasc.2, fun old hold link hl => ?_⟩⟩
      exact Nat.lt_of_lt_of_le (hbefore old hold _ List.mem_cons_self) (hasc.1 link hl).le
    · rw [hnew] at hl
      rcases List.mem_append.mp hl with hl | hl
      · exact hbefore link hl other (List.mem_cons_of_mem _ ho)
      · exact hfirst other ho _ (hasc.1 link hl)

/-! ## The links of queries -/

variable (doc) in
/-- The links that the `SELECT`s of a list contribute: one for each mixin, at most one for each
column. -/
structure LinksOf (selects : List NodeId) (links : List TopologyLink) : Prop where
  parents : ∀ member parent, .parent member parent ∈ links ↔
    parent ∈ selects ∧ doc.IsMixin parent member
  columns : ∀ column element, .column column element ∈ links →
    ∃ select ∈ selects, doc.IsColumn select column
  once : (links.map TopologyLink.fact).Nodup

theorem LinksOf.nil : doc.LinksOf [] [] :=
  ⟨fun _ _ => ⟨fun h => (by cases h), fun h => (by cases h.1)⟩, fun _ _ h => (by cases h),
    List.nodup_nil⟩

theorem LinksOf.perm {xs ys : List NodeId} (h : doc.LinksOf xs links)
    (hp : xs.Perm ys) : doc.LinksOf ys links := by
  refine ⟨fun member parent => ?_, fun column element hl => ?_, h.once⟩
  · rw [h.parents, hp.mem_iff]
  · obtain ⟨select, hs, hc⟩ := h.columns column element hl
    exact ⟨select, hp.mem_iff.mp hs, hc⟩

/-- Different `SELECT`s have no mixin and no column in common. -/
theorem LinksOf.append {xs ys : List NodeId} {links' : List TopologyLink} (h : doc.LinksOf xs links)
    (h' : doc.LinksOf ys links') (hd : xs.Disjoint ys) :
    doc.LinksOf (xs ++ ys) (links ++ links') := by
  refine ⟨fun member parent => ?_, fun column element hl => ?_, ?_⟩
  · rw [List.mem_append, List.mem_append, h.parents, h'.parents, or_and_right]
  · rcases List.mem_append.mp hl with hl | hl
    · obtain ⟨select, hs, hc⟩ := h.columns column element hl
      exact ⟨select, List.mem_append_left _ hs, hc⟩
    · obtain ⟨select, hs, hc⟩ := h'.columns column element hl
      exact ⟨select, List.mem_append_right _ hs, hc⟩
  · rw [List.map_append, List.nodup_append']
    refine ⟨h.once, h'.once, fun fact hf hf' => ?_⟩
    obtain ⟨link, hl, rfl⟩ := List.mem_map.mp hf
    obtain ⟨other, ho, heq⟩ := List.mem_map.mp hf'
    cases link with
    | parent member parent =>
      cases other with
      | parent member' parent' =>
        cases heq
        obtain ⟨hx, hm⟩ := (h.parents member parent).mp hl
        obtain ⟨hy, hm'⟩ := (h'.parents member parent').mp ho
        have hsame : parent = parent' := Option.some.inj (hm.container?.symm.trans hm'.container?)
        exact hd hx (hsame ▸ hy)
      | column => cases heq
    | column column element =>
      cases other with
      | parent => cases heq
      | column column' element' =>
        cases heq
        obtain ⟨select, hx, hc⟩ := h.columns column element hl
        obtain ⟨select', hy, hc'⟩ := h'.columns column element' ho
        exact hd hx (hc.unique hc' ▸ hy)

variable (doc) in
/-- The links of the mixins of a `SELECT`. -/
def mixinLinks (select : NodeId) : List TopologyLink :=
  (doc.propEntries select "mixin").map fun mixin => .parent mixin.2 select

theorem mem_mixinLinks :
    .parent member parent ∈ doc.mixinLinks select ↔ parent = select ∧
    doc.IsMixin parent member := by
  unfold mixinLinks
  constructor
  · intro h
    obtain ⟨⟨name, mixin⟩, hm, heq⟩ := List.mem_map.mp h
    cases heq
    obtain ⟨map, hmap, hentry⟩ := mem_propEntries hm
    exact ⟨rfl, map, name, hmap, hentry⟩
  · rintro ⟨rfl, map, name, hmap, hentry⟩
    refine List.mem_map.mpr ⟨(name, member), ?_, rfl⟩
    rw [propEntries, hmap]
    exact hentry

theorem nodup_mixinLinks (select : NodeId) :
    ((doc.mixinLinks select).map TopologyLink.fact).Nodup := by
  unfold mixinLinks
  rw [List.map_map, List.Nodup, List.pairwise_map]
  unfold propEntries
  cases doc.prop? select "mixin" with
  | none => exact .nil
  | some map =>
    refine (doc.pairwise_entries map).imp fun hab heq => hab.2.1 ?_
    have hsame := congrArg Prod.snd heq
    exact hsame ▸ .refl

/-- The columns of a `SELECT` are linked at most once. -/
theorem columns_of_scopeLinks {scope : QueryScope} (h : doc.scopeLinks options scope = .ok links) :
    (∀ link ∈ links, ∃ column element, link = .column column element ∧
      doc.IsColumn scope.select column) ∧ (links.map TopologyLink.fact).Nodup := by
  unfold scopeLinks at h
  split at h
  · next columns elements hc _ =>
    cases hw : doc.linkColumns options elements "" scope.number columns with
    | error e =>
      rw [hw] at h
      cases h
    | ok walk =>
      rw [hw] at h
      simp only [bind, Except.bind] at h
      split at h
      · cases h
      · cases h
        refine ⟨fun link hl => ?_, (ascending_linkColumns hw).once⟩
        obtain ⟨column, element, rfl, hb, _⟩ := (columnLinks_linkColumns hw).shape link hl
        exact ⟨column, element, rfl, columns, hc, hb⟩
  · cases h
    exact ⟨fun _ hl => (by cases hl), List.nodup_nil⟩

/-- What one `SELECT` contributes. -/
theorem linksOf_select {scope : QueryScope} (h : doc.scopeLinks options scope = .ok links) :
    doc.LinksOf [scope.select] (doc.mixinLinks scope.select ++ links) := by
  obtain ⟨hcolumns, honce⟩ := columns_of_scopeLinks h
  have hmixin : ∀ link ∈ doc.mixinLinks scope.select, ∃ member, link =
      .parent member scope.select := by
    intro link hl
    obtain ⟨mixin, _, rfl⟩ := List.mem_map.mp hl
    exact ⟨mixin.2, rfl⟩
  refine ⟨fun member parent => ?_, fun column element hl => ?_, ?_⟩
  · rw [List.mem_append, mem_mixinLinks, List.mem_singleton]
    refine or_iff_left fun hl => ?_
    obtain ⟨_, _, heq, _⟩ := hcolumns _ hl
    cases heq
  · rcases List.mem_append.mp hl with hl | hl
    · obtain ⟨_, heq⟩ := hmixin _ hl
      cases heq
    · obtain ⟨_, _, heq, hc⟩ := hcolumns _ hl
      cases heq
      exact ⟨scope.select, List.mem_singleton.mpr rfl, hc⟩
  · rw [List.map_append, List.nodup_append']
    refine ⟨nodup_mixinLinks scope.select, honce, fun fact hf hf' => ?_⟩
    obtain ⟨link, hl, rfl⟩ := List.mem_map.mp hf
    obtain ⟨other, ho, heq⟩ := List.mem_map.mp hf'
    obtain ⟨_, rfl⟩ := hmixin link hl
    obtain ⟨_, _, rfl, _⟩ := hcolumns other ho
    cases heq

/-! ## Collecting links -/

variable (doc) in
/-- The draft has gained scopes, and the links of their `SELECT`s. -/
def Gathered (before after : Draft) : Prop :=
  ∃ selects links, after.selects = before.selects ++ selects ∧ after.links = before.links ++ links ∧
    (selects.Nodup → doc.LinksOf selects links)

theorem Gathered.of_eq {before after : Draft} (hs : after.selects = before.selects)
    (hl : after.links = before.links) : doc.Gathered before after :=
  ⟨[], [], by rw [hs, List.append_nil], by rw [hl, List.append_nil], fun _ => .nil⟩

theorem Gathered.trans {a b c : Draft} (h : doc.Gathered a b) (h' : doc.Gathered b c) :
    doc.Gathered a c := by
  obtain ⟨selects, links, hs, hl, hof⟩ := h
  obtain ⟨selects', links', hs', hl', hof'⟩ := h'
  refine ⟨selects ++ selects', links ++ links', by rw [hs', hs, List.append_assoc],
    by rw [hl', hl, List.append_assoc], fun hn => ?_⟩
  obtain ⟨h₁, h₂, hd⟩ := List.nodup_append'.mp hn
  exact (hof h₁).append (hof' h₂) hd

variable (doc) in
/-- The construction collects the links of the `SELECT`s for which it opens scopes. -/
def Gathers {α : Type} (x : BuildM α) : Prop :=
  ∀ draft, Builds x draft fun _ after => doc.Gathered draft after

namespace Gathers

variable {α β : Type}

theorem pure (a : α) : doc.Gathers (pure a : BuildM α) :=
  fun _ => Builds.pure (.of_eq rfl rfl)

theorem throw (e : ModelError) : doc.Gathers (throw e : BuildM α) :=
  fun _ => Builds.throw _ _

theorem bind {x : BuildM α} {f : α → BuildM β} (hx : doc.Gathers x) (hf : ∀ a, doc.Gathers (f a)) :
    doc.Gathers (x >>= f) :=
  fun draft => Builds.bind (hx draft) fun a mid h => (hf a mid).mono fun _ _ h' => h.trans h'

theorem forM {f : α → BuildM PUnit} (hf : ∀ a, doc.Gathers (f a)) (l : List α) :
    doc.Gathers (l.forM f) := by
  induction l with
  | nil => exact pure _
  | cons a rest ih => exact bind (hf a) fun _ => ih

theorem modifyScope {f : Draft → Nat} {g : Draft → QueryScope → QueryScope}
    (hg : ∀ draft scope, (g draft scope).shape = scope.shape) :
    doc.Gathers (modify fun draft => draft.modifyScope (f draft) (g draft) : BuildM PUnit) :=
  fun draft => Builds.modify (.of_eq (draft.selects_modifyScope _ (hg draft)) rfl)

end Gathers

theorem builds_bindMixins (index : Nat) (select : NodeId) (draft : Draft) :
    Builds (doc.bindMixins index select) draft fun _ after =>
      after.selects = draft.selects ∧ after.links = draft.links ++ doc.mixinLinks select := by
  unfold bindMixins mixinLinks propEntries
  cases doc.prop? select "mixin" with
  | none => exact Builds.pure ⟨rfl, (List.append_nil _).symm⟩
  | some map =>
    dsimp only [Option.elim_some]
    -- the links of the mixins that are left complete the list
    refine (Builds.forM (fun rest after => after.selects = draft.selects ∧
      after.links ++ rest.map (fun mixin => TopologyLink.parent mixin.2 select) =
        draft.links ++ (doc.entries map).map fun mixin => TopologyLink.parent mixin.2 select)
      (fun mixin rest after h => ?_) _ draft ⟨rfl, rfl⟩).mono fun _ after h => ?_
    · refine Builds.modify ⟨?_, ?_⟩
      · refine Eq.trans ?_ h.1
        exact Draft.selects_modifyScope (after.addLinks _) index fun _ => rfl
      · rw [← h.2, List.map_cons, List.append_cons]
        rfl
    · simpa using h

theorem builds_linkScope (options : Options) {index : Nat} {draft : Draft}
    (h : draft.selects[index]? = some select) :
    Builds (doc.linkScope options index) draft fun _ after => after.selects = draft.selects ∧
      ∃ scope links, scope.select = select ∧ doc.scopeLinks options scope = .ok links ∧
        after.links = draft.links ++ links := by
  rw [Draft.selects, List.getElem?_map] at h
  obtain ⟨scope, hs, rfl⟩ := Option.map_eq_some_iff.mp h
  refine Builds.get_bind ?_
  rw [hs]
  exact Builds.lift_bind fun links hl => Builds.modify ⟨rfl, scope, links, rfl, hl, rfl⟩

section Visits

variable {visit : QueryVisit} (hv : ∀ node next isMain, doc.Gathers (visit node next isMain))

include hv

theorem gathers_visitNested (index : Nat) (expr : NodeId) :
    doc.Gathers (doc.visitNested visit index expr) :=
  .forM (fun query => .bind (hv query _ _) fun _ => .pure _) _

theorem gathers_visitSource (index : Nat) (leaf : SourceItem) :
    doc.Gathers (doc.visitSource visit index leaf) := by
  cases leaf with
  | path item name => exact .modifyScope fun _ _ => rfl
  | query item => exact .bind (hv item _ _) fun sub => .modifyScope fun _ _ => rfl
  | condition expr => exact gathers_visitNested hv index expr
  | fault item fault => cases fault <;> exact .throw _

theorem gathers_visitSources (index : Nat) (select : NodeId) :
    doc.Gathers (doc.visitSources visit index select) := by
  unfold visitSources
  split
  · exact .forM (gathers_visitSource hv index) _
  · exact .pure _

/-- A `SELECT` contributes the links of its sources, its own and those of its expressions. -/
theorem gathers_visitSelect {definition node : NodeId} {next : Option Nat} {isMain : Bool} :
    doc.Gathers (doc.visitSelect options definition visit node select next isMain) := by
  intro draft
  refine Builds.get_bind (Builds.modify_bind ?_)
  refine Builds.bind (gathers_visitSources hv _ select _) fun _ sourced hsourced => ?_
  obtain ⟨inner, found, hinner, hfound, hof⟩ := hsourced
  rw [Draft.selects_openScope] at hinner
  refine Builds.bind (builds_bindMixins _ select sourced) fun _ mixed hmixed => ?_
  have hhere : mixed.selects[draft.queries.length]? = some select := by
    rw [hmixed.1, hinner, List.append_assoc, List.getElem?_append_right (by simp [Draft.selects])]
    simp [Draft.selects]
  refine Builds.bind (builds_linkScope options hhere) fun _ linked hlinked => ?_
  obtain ⟨hselects, scope, own, rfl, hown, hlinks⟩ := hlinked
  refine Builds.bind (Gathers.forM (fun _ => gathers_visitNested hv _ _) _ linked)
    fun _ after hafter => Builds.pure ?_
  obtain ⟨later, rest, hlater, hrest, hof'⟩ := hafter
  refine ⟨scope.select :: inner ++ later,
    found ++ (doc.mixinLinks scope.select ++ own) ++ rest, ?_, ?_,
    fun hn => ?_⟩
  · rw [hlater, hselects, hmixed.1, hinner]
    simp
  · rw [hrest, hlinks, hmixed.2, hfound]
    simp [openScope, Draft.assign, Draft.addScope]
  · obtain ⟨hfirst, hlast, hd⟩ := List.nodup_append'.mp hn
    obtain ⟨hno, hin⟩ := List.nodup_cons.mp hfirst
    have hhead : doc.LinksOf (inner ++ [scope.select])
        (found ++ (doc.mixinLinks scope.select ++ own)) := by
      refine (hof hin).append (linksOf_select hown) fun other ho hs => ?_
      exact hno (List.mem_singleton.mp hs ▸ ho)
    exact (hhead.perm (List.perm_append_singleton scope.select inner)).append (hof' hlast) hd

theorem gathers_visitArm (next : Option Nat) (leading : Nat) (arm : NodeId) :
    doc.Gathers (visitArm visit next leading arm) :=
  .bind (hv arm _ _) fun _ => .modifyScope fun _ _ => rfl

theorem gathers_visitSet {node set : NodeId} {next : Option Nat} {isMain : Bool} :
    doc.Gathers (doc.visitSet visit node set next isMain) := by
  unfold visitSet
  split
  · exact .throw _
  · refine .bind (hv _ _ _) fun leading =>
      .bind (fun draft => Builds.modify (.of_eq ?_ rfl)) fun _ =>
      .bind (.forM (gathers_visitArm hv next leading) _) fun _ => .pure _
    exact Draft.selects_modifyScope _ leading fun _ => rfl

end Visits

variable (doc) in
theorem gathers_visitQuery (options : Options) (definition : NodeId) (depth : Nat) (node : NodeId)
    (next : Option Nat) (isMain : Bool) :
    doc.Gathers (doc.visitQuery options definition depth node next isMain) := by
  induction depth generalizing node next isMain with
  | zero => exact .throw _
  | succ depth ih =>
    unfold visitQuery
    split
    · exact gathers_visitSet ih
    · split
      · exact gathers_visitSelect ih
      · exact .throw _

variable (doc) in
theorem gathers_visitMain (options : Options) (definition : NodeId) :
    doc.Gathers (doc.visitMain options definition) := by
  have hv := gathers_visitQuery doc options definition maxQueryNesting
  unfold visitMain
  split
  · exact .pure _
  · dsimp only
    split
    · exact .bind (gathers_visitSelect hv) fun _ => .pure _
    · exact .bind (hv _ _ _) fun _ => .pure _

/-! ## The links of a topology -/

theorem Declares.step?_container (h : doc.Declares owner top member parent) :
    ∃ key ∈ memberKeys, (doc.container? member).bind doc.step? = some (.key key) := by
  induction h with
  | @direct owner top map member key name hkey hmap hm =>
    refine ⟨key, hkey, ?_⟩
    rw [(container?_of_mem_entries hm).1, Option.bind_some, (container?_of_prop? hmap).2]
  | inner _ _ _ _ ih => exact ih
  | part _ _ _ ih => exact ih

theorem IsMixin.step?_container (h : doc.IsMixin select member) :
    (doc.container? member).bind doc.step? = some (.key "mixin") := by
  obtain ⟨map, name, hmap, hm⟩ := h
  rw [(container?_of_mem_entries hm).1, Option.bind_some, (container?_of_prop? hmap).2]

theorem Declares.not_isMixin
    (h : doc.Declares owner top member parent) : ¬ doc.IsMixin select member := by
  intro hm
  obtain ⟨key, hkey, hstep⟩ := h.step?_container
  rw [hm.step?_container] at hstep
  cases hstep
  exact absurd hkey (by decide)

variable (doc) in
/-- The links of a definition: every member and every mixin has a link to its parent, and no two
links are about the same fact. -/
structure Linked (definition : NodeId) (links : List TopologyLink) : Prop where
  parents : ∀ member parent, .parent member parent ∈ links ↔
    doc.Declares definition definition member parent ∨
      (parent ∈ doc.selectsOf definition ∧ doc.IsMixin parent member)
  once : (links.map TopologyLink.fact).Nodup

theorem linked_buildTopology {definition : NodeId} {topology : Topology}
    (h : doc.buildTopology options definition = .ok (topology, links)) :
    doc.Linked definition links := by
  have hselects := (enumerates_buildTopology h).selects
  have hnodup := (built_buildTopology h).wellFormed.selects
  obtain ⟨selects, new, hs, hl, hof⟩ :=
    gathers_visitMain doc options definition _ _ _ (run_visitMain_of_buildTopology h).2
  have hl : links = doc.memberLinks definition definition ++ new := hl
  have hs : selects = doc.selectsOf definition := hs.symm.trans hselects
  have hof := hof (hs ▸ hselects ▸ hnodup)
  rw [hs] at hof
  refine ⟨fun member parent => ?_, ?_⟩
  · rw [hl, List.mem_append, hof.parents]
    refine or_congr_left ⟨fun hm => ?_, Declares.mem_memberLinks⟩
    obtain ⟨_, _, heq, hd⟩ := declares_of_mem_memberLinks hm
    cases heq
    exact hd
  · rw [hl, List.map_append, List.nodup_append']
    refine ⟨(linksWithin_memberLinks definition definition).once, hof.once, fun fact hf hf' => ?_⟩
    obtain ⟨link, hlink, rfl⟩ := List.mem_map.mp hf
    obtain ⟨other, hother, heq⟩ := List.mem_map.mp hf'
    obtain ⟨member, _, rfl, hd⟩ := declares_of_mem_memberLinks hlink
    cases other with
    | parent member' parent' =>
      cases heq
      exact hd.not_isMixin ((hof.parents member parent').mp hother).2
    | column => cases heq

end Document

end SchemaRefs
