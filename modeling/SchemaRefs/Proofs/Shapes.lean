import SchemaRefs.Proofs.Loading
import SchemaRefs.Proofs.Lockstep
import SchemaRefs.Proofs.Requests

/-!
# The shape of a definition

Below each handle of a document its nodes are laid out one after the other, so the handles below a
node are determined by the node's own handle and by its value (`Document.Holds`). Two nodes with the
same value therefore have children with the same values at the same distances, and the relation
between them mirrors their documents (`mirrors_twins`). A topology reads nothing else: it depends on
the value of the definition alone, up to the handle at which the definition stands
(`topology_determined_by_shape`).
-/

namespace SchemaRefs

namespace Document

variable {doc doc' : Document}

/-! ## Twins -/

/-- The second handle is as far from `origin'` as the first is from `origin`. -/
def Shifted (origin origin' : NodeId) (node node' : NodeId) : Prop :=
  node + origin' = node' + origin

theorem Shifted.add {origin origin' node node' : Nat} (h : Shifted origin origin' node node')
    (n : Nat) : Shifted origin origin' (node + n) (node' + n) := by
  have h' : node + origin' = node' + origin := h
  show node + n + origin' = node' + n + origin
  omega

theorem Shifted.eq_iff {origin origin' a b a' b' : Nat} (ha : Shifted origin origin' a a')
    (hb : Shifted origin origin' b b') : a = b ↔ a' = b' := by
  have ha' : a + origin' = a' + origin := ha
  have hb' : b + origin' = b' + origin := hb
  omega

/-- Nodes of two documents that hold the same value, at the same distance from `origin` and
`origin'`. -/
structure Twins (doc doc' : Document) (origin origin' : NodeId) (node node' : NodeId) : Prop where
  holds : ∃ value, doc.Holds node value ∧ doc'.Holds node' value
  shifted : Shifted origin origin' node node'

variable {origin origin' : NodeId}

theorem forall₂_twins_items (items : List Json) : ∀ {base base' : Nat}, doc.HoldsItems base items →
    doc'.HoldsItems base' items → Shifted origin origin' base base' →
    List.Forall₂ (Twins doc doc' origin origin') (Json.itemHandles base items)
      (Json.itemHandles base' items) := by
  induction items with
  | nil => exact fun _ _ _ => .nil
  | cons item rest ih =>
    intro base base' h h' hs
    exact .cons ⟨⟨item, h.cons.1, h'.cons.1⟩, hs⟩ (ih h.cons.2 h'.cons.2 (hs.add item.size))

theorem related_twins_props (props : List (String × Json)) : ∀ {base base' : Nat},
    doc.HoldsProps base props → doc'.HoldsProps base' props → Shifted origin origin' base base' →
    Table.Related (Twins doc doc' origin origin') (Json.propHandles base props)
      (Json.propHandles base' props) := by
  induction props with
  | nil => exact fun _ _ _ => .nil
  | cons prop rest ih =>
    obtain ⟨key, value⟩ := prop
    intro base base' h h' hs
    exact .cons ⟨rfl, ⟨value, h.cons.1, h'.cons.1⟩, hs⟩ (ih h.cons.2 h'.cons.2 (hs.add value.size))

/-- Twins have twins as children. -/
theorem mirrors_twins : Mirrors (Twins doc doc' origin origin') doc doc' := by
  rintro (node : Nat) (node' : Nat) ⟨⟨value, h, h'⟩, hs⟩
  have hnext : Shifted origin origin' (node + 1) (node' + 1) := hs.add 1
  cases value with
  | array items =>
    rw [h.array.1, h'.array.1]
    exact .some (.array (forall₂_twins_items items h.array.2 h'.array.2 hnext))
  | object props =>
    rw [h.object.1, h'.object.1]
    exact .some (.object (related_twins_props props h.object.2 h'.object.2 hnext))
  | _ =>
    obtain ⟨container, step, rest, hd⟩ := h
    obtain ⟨container', step', rest', hd'⟩ := h'
    rw [value?_of_drop hd, value?_of_drop hd']
    exact .some (by constructor)

/-- Definitions with the same value are twins. -/
theorem twins_of_toJson {definition definition' : NodeId} (h : doc.isDefinition definition = true)
    (h' : doc'.isDefinition definition' = true)
    (hshape : doc.toJson definition = doc'.toJson definition') :
    Twins doc doc' definition definition' definition definition' := by
  obtain ⟨value, hv⟩ := exists_holds (lt_size_of_container? (isDefinition_iff.mp h))
  obtain ⟨value', hv'⟩ := exists_holds (lt_size_of_container? (isDefinition_iff.mp h'))
  have heq : value = value' := by
    rw [← toJson_of_holds value hv, hshape, toJson_of_holds value' hv']
  exact ⟨⟨value, hv, heq ▸ hv'⟩, Nat.add_comm definition definition'⟩

/-! ## Topologies of twins -/

/-- Shifted nodes have the same number in tables that number shifted nodes alike. -/
theorem lookup_eq_of_numbersAlike {table table' : List (NodeId × Nat)} {node node' : NodeId}
    (h : NumbersAlike (Shifted origin origin') table table')
    (hn : Shifted origin origin' node node') :
    table.lookup node = table'.lookup node' := by
  induction h with
  | nil => rfl
  | @cons p q _ _ hpq _ ih =>
    have hiff : node = p.1 ↔ node' = q.1 := hn.eq_iff hpq.1
    rw [List.lookup_cons, List.lookup_cons, ih, hpq.2]
    by_cases hnode : node = p.1
    · rw [beq_iff_eq.mpr hnode, beq_iff_eq.mpr (hiff.mp hnode)]
    · rw [beq_false_of_ne hnode, beq_false_of_ne fun h => hnode (hiff.mpr h)]

/-- Two definitions with the same value have the same topology up to the distance between them, or
are malformed in the same way. -/
theorem topology_determined_by_shape (doc doc' : Document) (options : Options)
    {definition definition' : NodeId} (hdef : doc.isDefinition definition = true)
    (hdef' : doc'.isDefinition definition' = true)
    (hshape : doc.toJson definition = doc'.toJson definition') :
    (∃ e, doc.buildTopology options definition = .error e ∧
      doc'.buildTopology options definition' = .error e ∧ e.kind = .malformedQuery) ∨
    ∃ topology links topology' links',
      doc.buildTopology options definition = .ok (topology, links) ∧
      doc'.buildTopology options definition' = .ok (topology', links') ∧
      Topology.Related (Shifted definition definition') topology topology' ∧
      List.Forall₂ (TopologyLink.Related (Shifted definition definition')) links links' ∧
      ∀ node node', Shifted definition definition' node node' →
        topology.queryOf? node = topology'.queryOf? node' := by
  have heased : Options.Eased False options options := .inl rfl
  have hfollow := follows_buildTopology mirrors_twins heased (twins_of_toJson hdef hdef' hshape)
  have hshift : ∀ a b, Twins doc doc' definition definition' a b →
      Shifted definition definition' a b :=
    fun _ _ ht => ht.shifted
  generalize hx : doc.buildTopology options definition = x at hfollow
  generalize hy : doc'.buildTopology options definition' = y at hfollow
  cases hfollow with
  | @ok r r' hr =>
    have htopology := hr.1.mono hshift
    refine .inr ⟨r.1, r.2, r'.1, r'.2, rfl, rfl, htopology,
      hr.2.imp fun _ _ hl => hl.mono hshift, ?_⟩
    exact fun node node' hn => lookup_eq_of_numbersAlike htopology.queryTable hn
  | fails he => exact .inl ⟨_, rfl, rfl, he⟩
  | eased _ _ hl => exact hl.elim

/-! ## One view in two documents -/

/-- A view over a sub-query, with a mixin. -/
def reportView : Json :=
  .object [("query", .object [("SELECT", .object [
      ("from", .object [("SELECT", .object [("from", .object [("ref", .array [.string "E"])])]),
        ("as", .string "s")]),
      ("mixin", .object [("m", .object [("target", .string "E")])]),
      ("columns", .array [.object [("ref", .array [.string "s", .string "a"])]])])]),
    ("elements", .object [("a", .object [("type", .string "cds.String")])])]

/-- The view is the only definition. -/
def reportAlone : Document :=
  .ofDefinitions [("Report", reportView)]

/-- The view comes after its source and has another name. -/
def reportAfterSource : Document :=
  .ofDefinitions [("E", .object [("elements", .object [("a", .object [])])]),
    ("Summary", reportView)]

theorem toJson_reportAlone : reportAlone.toJson 2 = reportView :=
  toJson_of_holds reportView ⟨some 1, some (.key "Report"), [], by decide +kernel⟩

theorem toJson_reportAfterSource : reportAfterSource.toJson 5 = reportView :=
  toJson_of_holds reportView ⟨some 1, some (.key "Summary"), [], by decide +kernel⟩

/-- The topology of the view when it is the only definition. -/
def reportTopology : Topology where
  definition := 2
  queries :=
    [{ number := 1, node := 3, select := 4, aliases := [("s", .query 5 1)], mixins := [("m", 12)],
       elementsOwner := some 2, next := none },
     { number := 2, node := 5, select := 6, aliases := [("E", .path 7)], elementsOwner := none,
       next := some 0 }]
  queryTable := [(6, 1), (5, 1), (4, 0), (3, 0)]

def reportLinks : List TopologyLink :=
  [.parent 20 2, .parent 12 4, .column 15 20]

/-- In the other document the view has the same queries and links, three handles further on. -/
theorem report_topologies_shifted :
    reportAlone.isDefinition 2 = true ∧ reportAfterSource.isDefinition 5 = true ∧
      reportAlone.toJson 2 = reportAfterSource.toJson 5 ∧
      reportAlone.buildTopology {} 2 = .ok (reportTopology, reportLinks) ∧
      ∃ topology links, reportAfterSource.buildTopology {} 5 = .ok (topology, links) ∧
        Topology.Related (Shifted 2 5) reportTopology topology ∧
        List.Forall₂ (TopologyLink.Related (Shifted 2 5)) reportLinks links ∧
        topology.queryOf? 8 = some 1 := by
  have hdef : reportAlone.isDefinition 2 = true := by decide +kernel
  have hdef' : reportAfterSource.isDefinition 5 = true := by decide +kernel
  have hshape := toJson_reportAlone.trans toJson_reportAfterSource.symm
  have hbuild : reportAlone.buildTopology {} 2 = .ok (reportTopology, reportLinks) :=
    Model.eq_ok_of_toOption (by decide +kernel)
  refine ⟨hdef, hdef', hshape, hbuild, ?_⟩
  rcases topology_determined_by_shape reportAlone reportAfterSource {} hdef hdef' hshape with
    ⟨e, he, _⟩ | ⟨topology, links, topology', links', hok, hok', hrel, hlinks, hnumber⟩
  · rw [hbuild] at he
    cases he
  · rw [hbuild] at hok
    cases hok
    exact ⟨topology', links', hok', hrel, hlinks, (hnumber 5 8 rfl).symm⟩

end Document

end SchemaRefs
