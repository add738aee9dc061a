import SchemaRefs.Proofs.LinkCounts
import SchemaRefs.Proofs.QueryNumbers

/-!
# Definitions are prepared as a whole

Preparing a definition stores many facts, one after the other, and each of these steps could fail on
its own. None of them does: no two links of a topology are about the same fact
(`Document.linked_buildTopology`), so that no step finds another value in its place. A definition is
prepared with all its facts (`HoldsFacts`), or the query of the definition is malformed and nothing
has changed (`prepared_or_unchanged`).
-/

namespace SchemaRefs

/-- The column that a link relates to a result member. -/
def TopologyLink.columnFor? (element : NodeId) : TopologyLink → Option NodeId
  | .parent _ _ => none
  | .column item target => if target = element then some item else none

/-- An error while building a topology is a malformed query. -/
theorem Document.kind_of_buildTopology_error {doc : Document} {options : Options}
    {definition : NodeId} {e : ModelError} (h : doc.buildTopology options definition = .error e) :
    e.kind = .malformedQuery := by
  have heased : Options.Eased False options options := .inl rfl
  have hfollow := follows_buildTopology doc.mirrors_eq heased (Eq.refl definition)
  rw [h] at hfollow
  cases hfollow with
  | fails hk => exact hk
  | eased _ hk _ => exact hk

namespace Cache

theorem stats_of_set {cache after : Cache} {key : FactKey} {owner node : NodeId} {value : key.Value}
    (h : cache.set key owner node value = .ok after) : after.stats = cache.stats := by
  unfold Cache.set at h
  split at h
  · cases h
    rfl
  · split at h
    · cases h
    · split at h
      · split at h
        · cases h
          rfl
        · cases h
      · cases h
        rfl

end Cache

namespace Model

open CacheM

variable {m : Model} {definition : NodeId} {topology : Topology} {links : List TopologyLink}
  {s t : Cache} {keys : List FactKey} {done : List TopologyLink}

/-! ## Single facts -/

theorem stored_of_setFact {key : FactKey} {owner node : NodeId} {value : key.Value}
    (h : exec (setFact key owner node value) s = (.ok (), t)) :
    s.Stored key owner node value t := by
  rw [exec_setFact] at h
  rcases s.set_cases key owner node value with ⟨after, hok, hst, _⟩ | ⟨_, _, _, herr⟩ |
    ⟨_, _, _, _, _, _, herr⟩
  · rw [hok] at h
    cases h
    exact hst
  · rw [herr] at h
    cases h
  · rw [herr] at h
    cases h

theorem stored_of_setFirst {key : FactKey} {owner node : NodeId} {value : key.Value}
    (h : exec (setFirst key owner node value) s = (.ok (), t)) :
    (∃ old, s.get? key node = some old) ∧ t = s ∨
      s.get? key node = none ∧ s.Stored key owner node value t := by
  rw [setFirst, exec_bind_ok (exec_get s)] at h
  split at h
  · next hc =>
    cases h
    exact .inl ⟨Option.isSome_iff_exists.mp hc, rfl⟩
  · next hc => exact .inr ⟨by simpa [Cache.contains] using hc, stored_of_setFact h⟩

/-- Only facts of the given kinds have been written, and nothing has been counted. -/
structure Writes (keys : List FactKey) (s t : Cache) : Prop where
  stats : t.stats = s.stats
  same : ∀ key node, key ∉ keys → t.get? key node = s.get? key node

theorem Writes.refl (keys : List FactKey) (s : Cache) : Writes keys s s :=
  ⟨rfl, fun _ _ _ => rfl⟩

theorem Writes.trans (s t u : Cache) (h : Writes keys s t) (h' : Writes keys t u) :
    Writes keys s u :=
  ⟨h'.stats.trans h.stats, fun key node hk => (h'.same key node hk).trans (h.same key node hk)⟩

theorem writes_setFact (key : FactKey) (hk : key ∈ keys) (owner node : NodeId) (value : key.Value) :
    Keeps (fun _ => True) (Writes keys) (fun _ => True) (fun _ => True)
      (setFact key owner node value) := by
  intro s _
  rw [exec_setFact]
  rcases s.set_cases key owner node value with ⟨after, hok, hst, _⟩ | ⟨_, _, _, herr⟩ |
    ⟨_, _, _, _, _, _, herr⟩
  · rw [hok]
    refine ⟨trivial, ⟨Cache.stats_of_set hok, fun other id ho => hst.get?_of_ne (.inr ?_)⟩, trivial⟩
    rintro rfl
    exact ho hk
  · rw [herr]
    exact ⟨trivial, .refl keys s, trivial⟩
  · rw [herr]
    exact ⟨trivial, .refl keys s, trivial⟩

theorem writes_setFirst (key : FactKey) (hk : key ∈ keys) (owner node : NodeId)
    (value : key.Value) :
    Keeps (fun _ => True) (Writes keys) (fun _ => True) (fun _ => True)
      (setFirst key owner node value) := by
  intro s _
  rw [setFirst, exec_bind_ok (exec_get s)]
  split
  · exact ⟨trivial, .refl keys s, trivial⟩
  · exact writes_setFact key hk owner node value s trivial

variable (m) in
theorem writes_storeNumbers (hk : .query ∈ keys) (definition : NodeId) (topology : Topology) :
    Keeps (fun _ => True) (Writes keys) (fun _ => True) (fun _ => True)
      (m.storeNumbers definition topology) :=
  Keeps.forM (Writes.refl _) Writes.trans _ fun _ _ => Keeps.forM (Writes.refl _) Writes.trans _
    fun node _ => writes_setFirst .query hk definition node _

theorem writes_storeLink (hk : [.parent, .element, .column] ⊆ keys) (definition : NodeId)
    (link : TopologyLink) :
    Keeps (fun _ => True) (Writes keys) (fun _ => True) (fun _ => True)
      (storeLink definition link) := by
  cases link with
  | parent member parent => exact writes_setFact .parent (hk (by decide)) definition member parent
  | column column element =>
    exact Keeps.bind Writes.trans (writes_setFact .element (hk (by decide)) definition
      column element)
      fun _ _ => writes_setFirst .column (hk (by decide)) definition element column

variable (m) in
theorem writes_storeTopology (definition : NodeId) (topology : Topology)
    (links : List TopologyLink) :
    Keeps (fun _ => True) (Writes [.query, .parent, .element, .column, .topology]) (fun _ => True)
      (fun _ => True) (m.storeTopology definition topology links) :=
  Keeps.bind Writes.trans (writes_storeNumbers m (by decide) definition topology) fun _ _ =>
    Keeps.bind Writes.trans (Keeps.forM (Writes.refl _) Writes.trans _ fun link _ =>
      writes_storeLink (by decide) definition link) fun _ _ =>
        writes_setFact .topology (by decide) definition definition topology

/-! ## The facts of links -/

/-- The facts of the links are stored. The first column that yields a result member is the one of
the member. -/
structure HoldsLinks (links : List TopologyLink) (s : Cache) : Prop where
  parent : ∀ member parent, .parent member parent ∈ links → s.get? .parent member = some parent
  element : ∀ column element, .column column element ∈ links → s.get? .element column = some element
  column : ∀ element, s.get? .column element = links.findSome? (TopologyLink.columnFor? element)

theorem HoldsLinks.nil (h : ∀ element, s.get? .column element = none) : HoldsLinks [] s :=
  ⟨fun _ _ hl => (by cases hl), fun _ _ hl => (by cases hl), h⟩

/-- The parent of a member that had no link is stored beside the other facts. -/
theorem HoldsLinks.addParent {member parent : NodeId} (h : HoldsLinks done s)
    (hnew : (.parent, member) ∉ done.map TopologyLink.fact)
    (hst : s.Stored .parent definition member parent t) :
    HoldsLinks (done ++ [.parent member parent]) t := by
  refine ⟨fun other top hl => ?_, fun column element hl => ?_, fun element => ?_⟩
  · rcases List.mem_append.mp hl with hdone | hlast
    · have hne : other ≠ member := by
        rintro rfl
        exact hnew (List.mem_map.mpr ⟨_, hdone, rfl⟩)
      rw [hst.get?_of_ne (.inl hne)]
      exact h.parent other top hdone
    · cases List.mem_singleton.mp hlast
      exact hst.get?_self
  · rw [hst.get?_of_ne (.inr (by decide))]
    refine h.element column element ((List.mem_append.mp hl).resolve_right fun hlast => ?_)
    cases List.mem_singleton.mp hlast
  · rw [hst.get?_of_ne (.inr (by decide)), h.column, List.findSome?_append]
    simp [TopologyLink.columnFor?]

/-- The result member of a column that had no link is stored beside the other facts, and the column
with the member unless that has one. -/
theorem HoldsLinks.addColumn {column element : NodeId} {u : Cache}
    (h : HoldsLinks done s) (hnew : (.element, column) ∉ done.map TopologyLink.fact)
    (hst : s.Stored .element definition column element u)
    (hfirst : (∃ old, u.get? .column element = some old) ∧ t = u ∨
      u.get? .column element = none ∧ u.Stored .column definition element column t) :
    HoldsLinks (done ++ [.column column element]) t := by
  have hkeep : ∀ {key : FactKey} (node : NodeId), key ≠ .column →
      t.get? key node = u.get? key node := by
    intro key node hk
    rcases hfirst with ⟨_, rfl⟩ | ⟨_, hst'⟩
    · rfl
    · exact hst'.get?_of_ne (.inr hk)
  have hcolumn : ∀ target, u.get? .column target =
      done.findSome? (TopologyLink.columnFor? target) :=
    fun target => (hst.get?_of_ne (.inr (by decide))).trans (h.column target)
  refine ⟨fun member parent hl => ?_, fun other target hl => ?_, fun target => ?_⟩
  · rw [hkeep member (by decide), hst.get?_of_ne (.inr (by decide))]
    refine h.parent member parent ((List.mem_append.mp hl).resolve_right fun hlast => ?_)
    cases List.mem_singleton.mp hlast
  · rw [hkeep other (by decide)]
    rcases List.mem_append.mp hl with hdone | hlast
    · have hne : other ≠ column := by
        rintro rfl
        exact hnew (List.mem_map.mpr ⟨_, hdone, rfl⟩)
      rw [hst.get?_of_ne (.inl hne)]
      exact h.element other target hdone
    · cases List.mem_singleton.mp hlast
      exact hst.get?_self
  · rw [List.findSome?_append, ← hcolumn]
    by_cases htarget : element = target
    · subst htarget
      rcases hfirst with ⟨⟨old, hold⟩, rfl⟩ | ⟨hnone, hst'⟩
      · rw [hold]
        rfl
      · rw [hst'.get?_self, hnone]
        simp [TopologyLink.columnFor?]
    · have hsame : t.get? .column target = u.get? .column target := by
        rcases hfirst with ⟨_, rfl⟩ | ⟨_, hst'⟩
        · rfl
        · exact hst'.get?_of_ne (.inl (Ne.symm htarget))
      rw [hsame]
      simp [TopologyLink.columnFor?, htarget]

theorem HoldsLinks.storeLink {link : TopologyLink} (h : HoldsLinks done s)
    (hnew : link.fact ∉ done.map TopologyLink.fact)
    (hex : exec (storeLink definition link) s = (.ok (), t)) : HoldsLinks (done ++ [link]) t := by
  cases link with
  | parent member parent => exact h.addParent hnew (stored_of_setFact hex)
  | column column element =>
    rw [Model.storeLink, exec_bind] at hex
    rcases hset : exec (setFact .element definition column element) s with ⟨_ | _, u⟩
    · rw [hset] at hex
      cases hex
    · rw [hset] at hex
      exact h.addColumn hnew (stored_of_setFact hset) (stored_of_setFirst hex)

/-- Links about different facts are all stored. -/
theorem HoldsLinks.forM {rest : List TopologyLink} (h : HoldsLinks done s)
    (hn : ((done ++ rest).map TopologyLink.fact).Nodup)
    (hex : exec (rest.forM (Model.storeLink definition)) s = (.ok (), t)) :
    HoldsLinks (done ++ rest) t := by
  induction rest generalizing done s with
  | nil =>
    cases hex
    rw [List.append_nil]
    exact h
  | cons link rest ih =>
    rw [List.append_cons] at hn ⊢
    rw [show (link :: rest).forM (Model.storeLink definition) =
      (Model.storeLink definition link >>= fun _ =>
      rest.forM (Model.storeLink definition)) from rfl, exec_bind] at hex
    rcases hlink : exec (Model.storeLink definition link) s with ⟨_ | _, u⟩
    · rw [hlink] at hex
      cases hex
    rw [hlink] at hex
    have hnew : link.fact ∉ done.map TopologyLink.fact := by
      rw [List.map_append, List.map_append, List.nodup_append'] at hn
      intro hmem
      exact (List.nodup_append'.mp hn.1).2.2 hmem (List.mem_singleton.mpr rfl)
    exact ih (h.storeLink hnew hlink) hn hex

/-! ## All facts of a definition -/

variable (m) in
/-- The cache knows the topology of a definition and all facts that go with it. -/
structure HoldsFacts (definition : NodeId) (topology : Topology) (links : List TopologyLink)
    (s : Cache) : Prop where
  built : s.get? .topology definition = some topology
  parent : ∀ member parent, m.doc.owner? member = some definition →
    (s.get? .parent member = some parent ↔ .parent member parent ∈ links)
  element : ∀ column element, m.doc.owner? column = some definition →
    (s.get? .element column = some element ↔ .column column element ∈ links)
  column : ∀ element, m.doc.owner? element = some definition →
    s.get? .column element = links.findSome? (TopologyLink.columnFor? element)
  query : ∀ node, m.doc.owner? node = some definition → s.get? .query node = topology.queryOf? node

/-- A new session that has prepared a definition knows all its facts. -/
theorem holdsFacts_freshly (hd : m.doc.isDefinition definition = true)
    (hb : m.doc.buildTopology m.options definition = .ok (topology, links)) :
    m.HoldsFacts definition topology links (m.freshly definition) := by
  obtain ⟨u, v, hu, hfrom, _, hst, hex⟩ :=
    exec_prepare_built hd (Cache.get?_empty .topology definition) hb
      (fromLinks_of_orderly orderly_empty (Cache.get?_empty .topology definition))
  have hfresh : m.freshly definition = v := by rw [freshly, hex]
  have hstore : m.storeStructure definition topology links =
      (m.storeNumbers definition topology >>= fun _ => links.forM (storeLink definition)) := rfl
  rw [hfresh]
  rw [hstore, exec_bind] at hu
  have hquery : FactKey.query ∈ [FactKey.query] := List.mem_cons_self
  obtain ⟨_, hnumbers, _⟩ :=
    writes_storeNumbers m hquery definition topology (Cache.empty.count countBuild) trivial
  rcases hw : exec (m.storeNumbers definition topology)
    (Cache.empty.count countBuild) with ⟨_ | _, w⟩
  · rw [hw] at hu
    cases hu
  rw [hw] at hu hnumbers
  have hstart : HoldsLinks [] w := .nil fun element => by
    rw [hnumbers.same .column element (by decide), Cache.get?_count, Cache.get?_empty]
  have hlinks : HoldsLinks links u := hstart.forM (Document.linked_buildTopology hb).once hu
  refine ⟨hst.get?_self, fun member parent ho => ?_, fun column element ho => ?_,
    fun element _ => ?_,
    fun node _ => ?_⟩
  · rw [hst.get?_of_ne (.inr (by decide))]
    exact ⟨hfrom.parent member parent ho, hlinks.parent member parent⟩
  · rw [hst.get?_of_ne (.inr (by decide))]
    exact ⟨hfrom.element column element ho, hlinks.element column element⟩
  · rw [hst.get?_of_ne (.inr (by decide))]
    exact hlinks.column element
  · rw [← hfresh]
    exact freshly_query hd hb node

/-- Every session that has prepared a definition knows all its facts. -/
theorem holdsFacts_of_orderly (hs : Orderly m s)
    (hb : m.doc.buildTopology m.options definition = .ok (topology, links))
    (ht : s.get? .topology definition = some topology) :
    m.HoldsFacts definition topology links s := by
  have h := holdsFacts_freshly (hs.topology definition topology ht).1 hb
  have hsame : ∀ {key : FactKey} {node : NodeId}, key.isStructural = true →
      m.doc.owner? node = some definition →
      s.get? key node = (m.freshly definition).get? key node :=
    fun hk ho => get?_of_topology hs hk ho (by rw [ht]; rfl)
  refine ⟨ht, fun member parent ho => ?_, fun column element ho => ?_, fun element ho => ?_,
    fun node ho => ?_⟩
  · rw [hsame rfl ho]
    exact h.parent member parent ho
  · rw [hsame rfl ho]
    exact h.element column element ho
  · rw [hsame rfl ho]
    exact h.column element ho
  · rw [hsame rfl ho]
    exact h.query node ho

/-! ## Preparing a definition -/

theorem kind_buildError (definition : NodeId) (e : ModelError) :
    (m.buildError definition e).kind = e.kind := rfl

/-- What the first preparation of a definition counts, and what it leaves alone. -/
theorem frame_of_prepare (hs : Orderly m s) (hd : m.doc.isDefinition definition = true)
    (hnone : s.get? .topology definition = none)
    (hex : exec (m.prepare definition) s = (.ok topology, t)) :
    t.stats = countBuild s.stats ∧ ∀ key node,
      (key.isStructural = true → m.doc.owner? node ≠ some definition) →
      (key = .topology → node ≠ definition) → t.get? key node = s.get? key node := by
  cases hb : m.doc.buildTopology m.options definition with
  | error e =>
    rw [exec_prepare_error hd hnone hb] at hex
    cases hex
  | ok built =>
    obtain ⟨topology', links⟩ := built
    obtain ⟨u, v, hu, hfrom, haside, hst, hex'⟩ :=
      exec_prepare_built hd hnone hb (fromLinks_of_orderly hs hnone)
    rw [hex] at hex'
    cases hex'
    have hstore : exec (m.prepare definition) s =
        exec (m.storeTopology definition topology links >>= fun _ => pure topology)
          (s.count countBuild) := by
      rw [prepare, if_pos hd, exec_bind_ok (exec_fact? _ _ s), hnone]
      dsimp only
      rw [hb]
      exact exec_bind_ok (exec_count _ s) _
    have hwrites : Keeps (fun _ => True) (Writes [.query, .parent, .element, .column, .topology])
        (fun _ => True) (fun _ => True)
        (m.storeTopology definition topology links >>= fun _ => pure topology) :=
      Keeps.bind Writes.trans (writes_storeTopology m definition topology links)
        fun _ _ => Keeps.pure (Writes.refl _) trivial
    have hstats := (hwrites (s.count countBuild) trivial).2.1.stats
    rw [← hstore, hex] at hstats
    refine ⟨hstats, fun key node hkey htop => ?_⟩
    have hne : node ≠ definition ∨ key ≠ .topology := by
      by_cases hk : key = .topology
      · exact .inl (htop hk)
      · exact .inr hk
    rw [hst.get?_of_ne hne]
    exact haside.same key node hkey

/-- Preparing a definition fails on a malformed query and leaves the session as it was. Otherwise it
comes to the topology of the definition and leaves all its facts in the session: the parents of
members, the result members of columns and their columns, and the numbers of queries. Nothing else
changes, and a topology is built once. No step can fail: each member and each mixin has one link to
its parent, which lies above it in the definition, and no column has two links. -/
theorem prepared_or_unchanged {m : Model} {s : Cache} {definition : NodeId} (hs : m.Reachable s)
    (hd : m.doc.isDefinition definition = true) :
    (∃ e, exec (m.prepare definition) s = (.error (.model e), s) ∧ e.kind = .malformedQuery) ∨
    ∃ topology links t, m.doc.buildTopology m.options definition = .ok (topology, links) ∧
      exec (m.prepare definition) s = (.ok topology, t) ∧ m.HoldsFacts definition topology links t ∧
      ((s.get? .topology definition).isSome = true → t = s) ∧
      (s.get? .topology definition = none →
        t.stats = { s.stats with topologyBuilds := s.stats.topologyBuilds + 1 }) ∧
      (∀ key node, (key.isStructural = true → m.doc.owner? node ≠ some definition) →
        (key = .topology → node ≠ definition) → t.get? key node = s.get? key node) ∧
      (links.map TopologyLink.fact).Nodup ∧
      (∀ member parent, .parent member parent ∈ links ↔
        m.doc.Declares definition definition member parent ∨
          (parent ∈ m.doc.selectsOf definition ∧ m.doc.IsMixin parent member)) ∧
      ∀ member parent, .parent member parent ∈ links →
        m.doc.Within definition parent ∧ m.doc.Within parent member ∧ parent ≠ member := by
  have horderly := (settled_of_reachable hs).agrees.orderly
  rcases prepare_cases horderly hd with ⟨topology, links, t, hb, hex, ht, _, htop⟩ | ⟨e, hb, hex⟩
  · have hlinked := Document.linked_buildTopology hb
    refine .inr ⟨topology, links, t, hb, hex, holdsFacts_of_orderly ht hb htop, fun hsome => ?_,
      fun hnone => (frame_of_prepare horderly hd hnone hex).1, ?_, hlinked.once, hlinked.parents,
      fun member parent hl => ?_⟩
    · obtain ⟨topology', hget⟩ := Option.isSome_iff_exists.mp hsome
      rw [exec_prepare_stored hd hget] at hex
      cases hex
      rfl
    · cases hget : s.get? .topology definition with
      | some topology' =>
        rw [exec_prepare_stored hd hget] at hex
        cases hex
        exact fun _ _ _ _ => rfl
      | none => exact (frame_of_prepare horderly hd hget hex).2
    · obtain ⟨h₁, h₂, hlt⟩ := (Document.built_buildTopology hb).parent_within hl
      exact ⟨h₁, h₂, Nat.ne_of_lt hlt⟩
  · exact .inl ⟨_, hex, (kind_buildError definition e).trans
      (Document.kind_of_buildTopology_error hb)⟩

/-! ### A view with a mixin -/

/-- Shops with an address and tags. One view lists the cities of shops; another one has a column
without result member. -/
def shopModel : Model :=
  ⟨.ofDefinitions [
    ("Shops", .object [("elements", .object [
      ("address", .object [("elements", .object [("city", .object [])])]),
      ("tags", .object [("items", .object [("elements", .object [("name", .object [])])])])])]),
    ("Cities", .object [("query", .object [("SELECT", .object [
      ("from", .object [("ref", .array [.string "Shops"])]),
      ("mixin", .object [("near", .object [("target", .string "Shops")])]),
      ("columns", .array [.object [("ref", .array [.string "address", .string "city"])]])])]),
      ("elements", .object [("city", .object [])])]),
    ("Broken", .object [("query", .object [("SELECT", .object [
      ("from", .object [("ref", .array [.string "Shops"])]),
      ("columns", .array [.object [("ref", .array [.string "address"])]])])]),
      ("elements", .object [])])], {}⟩

def cityScope : QueryScope :=
  { number := 1, node := 12, select := 13, aliases := [("Shops", .path 14)],
    mixins := [("near", 18)], elementsOwner := some 11, next := none }

def cityTopology : Topology :=
  ⟨11, [cityScope], [(13, 0), (12, 0)]⟩

def cityLinks : List TopologyLink :=
  [.parent 26 11, .parent 18 13, .column 21 26]

/-- The view of cities is prepared with the parent of its mixin, the element of its column and the
number of its query. The other view leaves the session as it was. -/
theorem shopModel_prepared_or_unchanged :
    (∃ t, exec (shopModel.prepare 11) Cache.empty = (.ok cityTopology, t) ∧
      t.stats.topologyBuilds = 1 ∧ t.get? .parent 18 = some 13 ∧ t.get? .element 21 = some 26 ∧
      t.get? .column 26 = some 21 ∧ t.get? .query 12 = some 0) ∧
    ∃ e, exec (shopModel.prepare 27) Cache.empty = (.error (.model e), Cache.empty) ∧
      e.kind = .malformedQuery := by
  have hcities : shopModel.doc.buildTopology shopModel.options 11 = .ok (cityTopology, cityLinks) :=
    eq_ok_of_toOption (by decide +kernel)
  have hbroken : (shopModel.doc.buildTopology shopModel.options 27).toOption =
      none := by decide +kernel
  constructor
  · rcases prepared_or_unchanged .new
      (show shopModel.doc.isDefinition 11 = true by decide +kernel) with
      ⟨e, hex, _⟩ | ⟨topology, links, t, hb, hex, hfacts, _, hstats, _⟩
    · have hok : (exec (shopModel.prepare 11) Cache.empty).1.toOption = some cityTopology := by
        decide +kernel
      rw [hex] at hok
      cases hok
    · rw [hcities] at hb
      cases hb
      have hcolumn := hfacts.column 26 (by decide +kernel)
      have hquery := hfacts.query 12 (by decide +kernel)
      refine ⟨t, hex, ?_, (hfacts.parent 18 13 (by decide +kernel)).mpr (by decide),
        (hfacts.element 21 26 (by decide +kernel)).mpr (by decide), hcolumn, hquery⟩
      rw [hstats (Cache.get?_empty .topology 11)]
      rfl
  · rcases prepared_or_unchanged .new
      (show shopModel.doc.isDefinition 27 = true by decide +kernel) with
      herror | ⟨topology, links, t, hb, _⟩
    · exact herror
    · rw [hb] at hbroken
      cases hbroken

end Model

end SchemaRefs
