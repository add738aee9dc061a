import SchemaRefs.Proofs.Execution
import SchemaRefs.Proofs.Ownership
import SchemaRefs.Session.Describe

/-!
# Locations of paths

Two searches find the location of a place in a document. One goes down a path and keeps the last
location that it has seen (`Description.describeSteps`), while it puts the path into words. The
other climbs from a node to the nearest container with a location (`Document.nearestLocation?`).

Whatever the words are, a step of the first search takes the location of the node that it comes to,
if there is one (`location_describeStep`). So on the way down from a definition the location kept is
always the one that the climb would find without leaving the definition (`LocatedBy.step`). The
topology only numbers the queries, and so the location does not depend on it
(`described_location_is_nearest`).
-/

namespace SchemaRefs

namespace Document

variable {doc : Document} {id node parent : NodeId}

/-! ## Following a path as far as it leads -/

variable (doc) in
/-- The last node that is reached from `id` by following steps, up to the first one that leads
nowhere. -/
def reached (id : NodeId) : List Step → NodeId
  | [] => id
  | step :: rest =>
    match doc.follow? id step with
    | none => id
    | some next => reached next rest

theorem reached_of_follow? {next : NodeId} {step : Step} (h : doc.follow? id step = some next)
    (rest : List Step) :
    doc.reached id (step :: rest) = doc.reached next rest := by
  rw [reached, h]

theorem reached_of_dead_end {step : Step} (h : doc.follow? id step = none) (rest : List Step) :
    doc.reached id (step :: rest) = id := by
  rw [reached, h]

/-- A path into a definition leads as far as its inner steps lead from the definition. -/
theorem reached_root {name : String} {definition : NodeId}
    (hd : doc.definition? name = some definition) (inner : List Step) :
    doc.reached root (.key "definitions" :: .key name :: inner) = doc.reached definition inner := by
  rw [reached_of_follow? ((follow?_key root "definitions").trans doc.prop?_definitions),
    reached_of_follow? ((follow?_key doc.definitions name).trans hd)]

/-! ## Locations between two nodes -/

theorem nearestLocation?_of_container? (h : doc.container? id = some parent) :
    doc.nearestLocation? id = (doc.location? id <|> doc.nearestLocation? parent) := by
  rw [nearestLocation?]
  cases doc.location? id with
  | some location => rfl
  | none =>
    dsimp only
    split
    · next found hc =>
      rw [h] at hc
      cases hc
      rfl
    · next hc =>
      rw [h] at hc
      cases hc

theorem nearestLocation?_of_location? {location : Location} (h : doc.location? id = some location) :
    doc.nearestLocation? id = some location := by
  rw [nearestLocation?, h]

variable (doc) in
/-- Some node from `top` down to `node` carries a location. -/
def CarriesLocation (top node : NodeId) : Prop :=
  ∃ carrier, doc.Within top carrier ∧ doc.Within carrier node ∧
    (doc.location? carrier).isSome = true

theorem carriesLocation_self_iff :
    doc.CarriesLocation node node ↔ (doc.location? node).isSome = true := by
  constructor
  · rintro ⟨carrier, habove, hbelow, hlocation⟩
    rwa [habove.antisymm hbelow]
  · exact fun hlocation => ⟨node, .refl, .refl, hlocation⟩

/-- One level down, the location is carried by the new node or by one that was passed before. -/
theorem carriesLocation_iff_of_container? {top : NodeId} (hc : doc.container? node = some parent)
    (hw : doc.Within top parent) :
    doc.CarriesLocation top node ↔ (doc.location? node).isSome = true ∨
    doc.CarriesLocation top parent := by
  constructor
  · rintro ⟨carrier, habove, hbelow, hlocation⟩
    by_cases hself : carrier = node
    · exact .inl (hself ▸ hlocation)
    · exact .inr ⟨carrier, habove, hbelow.container hself hc, hlocation⟩
  · rintro (hlocation | ⟨carrier, habove, hbelow, hlocation⟩)
    · exact ⟨node, .step hc hw, .refl, hlocation⟩
    · exact ⟨carrier, habove, .step hc hbelow, hlocation⟩

variable (doc) in
/-- What a search for the location of `node` finds if it does not look above `top`. -/
structure LocatedBy (top node : NodeId) (found : Option Location) : Prop where
  nearest : doc.CarriesLocation top node → found = doc.nearestLocation? node
  nowhere : ¬ doc.CarriesLocation top node → found = none

theorem LocatedBy.self (node : NodeId) : doc.LocatedBy node node (doc.location? node) where
  nearest h := by
    obtain ⟨location, hl⟩ := Option.isSome_iff_exists.mp (carriesLocation_self_iff.mp h)
    rw [nearestLocation?_of_location? hl, hl]
  nowhere h := Option.not_isSome_iff_eq_none.mp fun hl => h (carriesLocation_self_iff.mpr hl)

/-- The search from a node below looks there first. -/
theorem LocatedBy.step {top : NodeId} {found : Option Location} (h : doc.LocatedBy top parent found)
    (hc : doc.container? node = some parent) (hw : doc.Within top parent) :
    doc.LocatedBy top node (doc.location? node <|> found) := by
  have hcarries := carriesLocation_iff_of_container? hc hw
  cases hl : doc.location? node with
  | some location =>
    refine ⟨fun _ => (nearestLocation?_of_location? hl).symm, fun hnot => absurd ?_ hnot⟩
    exact hcarries.mpr (.inl (by rw [hl]; rfl))
  | none =>
    rw [hl] at hcarries
    have hparent : doc.CarriesLocation top node ↔
        doc.CarriesLocation top parent := by simpa using hcarries
    refine ⟨fun hcarried => ?_, fun hnot => h.nowhere fun hcarried => hnot (hparent.mpr hcarried)⟩
    rw [nearestLocation?_of_container? hc, hl]
    exact h.nearest (hparent.mp hcarried)

end Document

namespace Description

variable {doc : Document} {queryOf? : NodeId → Option Nat}

/-! ## What the words leave alone -/

theorem location_describeKey (key : String) (next : NodeId) (progress : Progress) :
    (describeKey doc key next progress).location = progress.location := by
  unfold describeKey
  split
  · rfl
  · split
    · rfl
    · split
      · rfl
      · split <;> rfl

theorem location_describeQuery (index : Nat) (progress : Progress) :
    (describeQuery index progress).location = progress.location := by
  unfold describeQuery
  dsimp only
  split <;> rfl

/-- The words for a step do not touch the location. -/
theorem location_describeStep (step : Step) (next : NodeId) (progress : Progress) :
    (describeStep doc queryOf? step next progress).location = progress.location := by
  unfold describeStep
  split
  · rfl
  · split
    · exact location_describeQuery _ _
    · split
      · rfl
      · split
        · rfl
        · split
          · exact location_describeKey _ _ _
          · rfl

/-- The words for a whole path end at the node that the path reaches, with the location that is
found from there. -/
theorem locatedBy_describeSteps (queryOf? : NodeId → Option Nat) {top node : NodeId}
    (steps : List Step) (progress : Progress) (hnode : progress.node = node)
    (hw : doc.Within top node) (h : doc.LocatedBy top node progress.location) :
    doc.LocatedBy top (doc.reached node steps)
      (describeSteps doc queryOf? steps progress).location := by
  induction steps generalizing progress node with
  | nil => exact h
  | cons step rest ih =>
    rw [describeSteps, hnode]
    cases hf : doc.follow? node step with
    | none =>
      rw [Document.reached_of_dead_end hf]
      exact h
    | some next =>
      have hc := (Document.container?_of_follow? hf).1
      rw [Document.reached_of_follow? hf]
      refine ih _ rfl (.step hc hw) ?_
      rw [location_describeStep]
      exact h.step hc hw

end Description

namespace Model

open CacheM

variable {m : Model} {path : Path}

/-! ## Descriptions in a session -/

/-- A path into a definition has a description, whatever the session knows. -/
theorem exec_describe_inside {definition : NodeId}
    (h : path.definitionName?.bind m.doc.definition? = some definition) (cache : Cache) :
    exec (m.describe path) cache =
      (.ok (Description.ofSteps m.doc (fun node => (m.topologyFor? definition cache).bind
        (·.queryOf? node)) definition
        path.inner), cache) := by
  unfold describe
  rw [h]
  rfl

theorem exec_describe_outside (h : path.definitionName?.bind m.doc.definition? = none)
    (cache : Cache) :
    exec (m.describe path) cache = (.error (.model (.outsideDefinition path)), cache) := by
  unfold describe
  rw [h]
  rfl

/-- The description of a path into a definition has the location that is nearest to the last node
the path reaches, if a node on the way from the definition to it carries one, and no location
otherwise. Containers of the definition do not count. This holds in every session, whether it keeps
the topology of the definition or has to build one, and also if none can be built. -/
theorem described_location_is_nearest (m : Model) (cache : Cache) (path : Path) (name : String)
    (definition : NodeId) (hname : path.definitionName? = some name)
    (hd : m.doc.definition? name = some definition) :
    ∃ description, exec (m.describe path) cache = (.ok description, cache) ∧
      ((∃ carrier, m.doc.Within definition carrier ∧
          m.doc.Within carrier (m.doc.reached Document.root path.steps) ∧
          (m.doc.location? carrier).isSome = true) →
        description.location = m.doc.nearestLocation? (m.doc.reached Document.root path.steps)) ∧
      ((¬ ∃ carrier, m.doc.Within definition carrier ∧
          m.doc.Within carrier (m.doc.reached Document.root path.steps) ∧
          (m.doc.location? carrier).isSome = true) →
        description.location = none) := by
  have hinside : path.definitionName?.bind m.doc.definition? = some definition := by
    rw [hname]
    exact hd
  have hreached : m.doc.reached Document.root path.steps = m.doc.reached definition path.inner := by
    unfold Path.definitionName? at hname
    split at hname
    · cases hname
      exact Document.reached_root hd _
    · cases hname
  rw [hreached]
  have hlocated := Description.locatedBy_describeSteps
    (fun node => (m.topologyFor? definition cache).bind (·.queryOf? node)) path.inner
    { node := definition, parts := [Description.definitionPart m.doc definition],
      location := m.doc.location? definition } rfl .refl (.self definition)
  exact ⟨_, exec_describe_inside hinside cache, hlocated.nearest, hlocated.nowhere⟩

/-- The document and its first definition carry locations, and one of the first definition's
elements has a `$location` that names no file, and a type that is not defined. The source of the
second definition's query is malformed. -/
def placedTree : Json :=
  .object [
    ("$location", .object [("file", .string "all.cds")]),
    ("definitions", .object [
      ("A", .object [
        ("$location", .object [("file", .string "a.cds")]),
        ("elements", .object [("x", .object [
          ("$location", .object []),
          ("type", .object [("ref", .array [.string "T", .string "y"])])])])]),
      ("V", .object [("query", .object [("SELECT", .object [("from", .object [])])])])])]

def placedModel : Model :=
  ⟨.ofTree placedTree (by decide +kernel) 3 rfl, {}⟩

/-- A path that leads no further than to a type has the location of the definition. The view has no
topology and no location, although its document has one. -/
theorem placedModel_locations :
    (∃ description,
      exec (placedModel.describe
        ⟨[.key "definitions", .key "A", .key "elements", .key "x", .key "type", .key "length"]⟩)
        Cache.empty = (.ok description, Cache.empty) ∧
      description.location = some { file := "a.cds" }) ∧
      (placedModel.doc.buildTopology placedModel.options 14).toOption = none ∧
      placedModel.doc.nearestLocation? 15 = some { file := "all.cds" } ∧
      ∃ description,
        exec (placedModel.describe ⟨[.key "definitions", .key "V", .key "query"]⟩) Cache.empty =
          (.ok description, Cache.empty) ∧ description.location = none := by
  refine ⟨?_, by decide +kernel, by decide +kernel, ?_⟩
  · obtain ⟨description, hexec, hnearest, _⟩ :=
      described_location_is_nearest placedModel Cache.empty
      ⟨[.key "definitions", .key "A", .key "elements", .key "x", .key "type", .key "length"]⟩
        "A" 4 rfl
      (by decide +kernel)
    have hreached : placedModel.doc.reached Document.root
        [.key "definitions", .key "A", .key "elements", .key "x", .key "type", .key "length"] =
          10 := by
      decide +kernel
    have hclimb : placedModel.doc.Within 4 10 :=
      Document.within_iff_climb.mpr ⟨3, by decide +kernel⟩
    rw [hreached] at hnearest
    exact ⟨description, hexec, (hnearest ⟨4, .refl, hclimb, by decide +kernel⟩).trans
      (by decide +kernel)⟩
  · obtain ⟨description, hexec, _, hnowhere⟩ :=
      described_location_is_nearest placedModel Cache.empty
      ⟨[.key "definitions", .key "V", .key "query"]⟩ "V" 14 rfl (by decide +kernel)
    have hreached : placedModel.doc.reached Document.root
        [.key "definitions", .key "V", .key "query"] = 15 := by
      decide +kernel
    rw [hreached] at hnowhere
    refine ⟨description, hexec, hnowhere ?_⟩
    rintro ⟨carrier, habove, hbelow, hlocation⟩
    rcases Nat.eq_or_lt_of_le habove.le with rfl | hlt
    · exact absurd hlocation (by decide +kernel)
    · obtain rfl : carrier = 15 := Nat.le_antisymm hbelow.le hlt
      exact absurd hlocation (by decide +kernel)

end Model

end SchemaRefs
