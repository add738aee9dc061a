import SchemaRefs.Proofs.ReferenceLists
import SchemaRefs.Proofs.SegmentPaths

/-!
# Places in a definition

What a node of a definition is for follows from the properties on the way to it. A declaration
consists of properties; those of some names hold members, those of others start an expression, the
rest belongs to the declaration, and a query starts a declaration anew (`Document.Stands`). Each
node has one place (`Document.Stands.unique`).

Main statement: the walk to a node knows its place, whether it is a member, and whether a property
without a meaning leads to it (`Walk.shows_walkTo?`).
-/

namespace SchemaRefs

/-- What a node of a definition is for. -/
inductive Place where
  /-- A definition, a member or a query, or a part of one. -/
  | declaration
  /-- A map of members. -/
  | members
  /-- An expression, or a part of one. -/
  | expression
deriving Repr, DecidableEq

namespace Document

variable {doc : Document} {definition : NodeId} {child node parent : NodeId}

/-! ## Properties of declarations -/

/-- The properties whose values are expressions. -/
def expressionKeys : List String :=
  ["type", "includes", "keys", "on", "value", "default"]

/-- The properties of queries whose values are expressions. -/
def clauseKeys : List String :=
  ["from", "columns", "where", "having", "groupBy", "orderBy", "excluding"]

/-- The properties whose values are parts of the declaration. -/
def partKeys : List String :=
  ["returns", "items", "target", "targetAspect"]

variable (doc) in
/-- The property holds members. -/
def HoldsMembers (key : String) (child : NodeId) : Prop :=
  (MemberMap.ofKey? key).isSome = true ∧ doc.isObject child = true

variable (doc) in
/-- The property starts an expression. A target does so if it is a name or a reference. -/
def StartsExpression (inQuery : Prop) (key : String) (child : NodeId) : Prop :=
  key ∈ expressionKeys ∨ nameStartsWith key "@" = true ∨
    (key = "target" ∨ key = "targetAspect") ∧ doc.isRefLike child = true ∨
    key ∈ clauseKeys ∧ inQuery

variable (doc) in
/-- The property has a meaning for references. -/
def HasMeaning (inQuery : Prop) (key : String) (child : NodeId) : Prop :=
  doc.HoldsMembers key child ∨ doc.StartsExpression inQuery key child ∨ key ∈ partKeys ∨
    key = "args" ∧ inQuery

theorem HoldsMembers.not_startsExpression {inQuery : Prop} {key : String}
    (h : doc.HoldsMembers key child) : ¬ doc.StartsExpression inQuery key child := by
  obtain ⟨hmap, _⟩ := h
  unfold MemberMap.ofKey? at hmap
  unfold StartsExpression
  split at hmap <;> first | (cases hmap; done) | (simp [expressionKeys, clauseKeys]; decide +kernel)

theorem not_startsExpression_of_partKeys {inQuery : Prop} {key : String} (hk : key ∈ partKeys)
    (hr : key = "target" ∨ key = "targetAspect" → doc.isRefLike child = false) :
    ¬ doc.StartsExpression inQuery key child := by
  have hno : ∀ key ∈ partKeys, key ∉ expressionKeys ∧ nameStartsWith key "@" = false ∧
      key ∉ clauseKeys := by
    decide +kernel
  obtain ⟨hexpression, hat, hclause⟩ := hno key hk
  rintro (h | h | ⟨htarget, href⟩ | ⟨h, _⟩)
  · exact hexpression h
  · rw [hat] at h
    cases h
  · rw [hr htarget] at href
    cases href
  · exact hclause h

/-! ## Places -/

variable (doc) in
/-- The node lies within a query of the definition. -/
def InQuery (definition node : NodeId) : Prop :=
  ∃ query, doc.IsQueryPart definition query ∧ doc.Within query node

variable (doc) in
/-- From a node at one place, a step leads to a node at another one. -/
inductive Leads (definition parent child : NodeId) : Place → Place → Prop where
  | member : Leads definition parent child .members .declaration
  | item {position : Nat} : doc.step? child = some (.index position) →
      Leads definition parent child .declaration .declaration
  | members {key : String} : doc.step? child = some (.key key) → doc.HoldsMembers key child →
      Leads definition parent child .declaration .members
  | start {key : String} : doc.step? child = some (.key key) →
      doc.StartsExpression (doc.InQuery definition parent) key child →
      Leads definition parent child .declaration .expression
  | part {key : String} : doc.step? child = some (.key key) → ¬ doc.HoldsMembers key child →
      ¬ doc.StartsExpression (doc.InQuery definition parent) key child →
      Leads definition parent child .declaration .declaration
  | inner : Leads definition parent child .expression .expression

variable (doc) in
/-- The node of a definition stands at a place. -/
inductive Stands (definition : NodeId) : NodeId → Place → Prop where
  | definition : Stands definition definition .declaration
  | query {node : NodeId} : doc.IsQueryPart definition node → Stands definition node .declaration
  | step {node parent : NodeId} {place place' : Place} : Stands definition parent place →
      doc.container? node = some parent → ¬ doc.IsQueryPart definition node →
      doc.Leads definition parent node place place' → Stands definition node place'

variable (doc) in
/-- The node is a member. -/
def IsMember (definition node : NodeId) : Prop :=
  ∃ map, doc.Stands definition map .members ∧ doc.container? node = some map ∧
    ¬ doc.IsQueryPart definition node

variable (doc) in
/-- A property without a meaning for references leads to the node. -/
def BelowUnknown (definition node : NodeId) : Prop :=
  ∃ holder key child, doc.Stands definition holder .declaration ∧
    doc.prop? holder key = some child ∧
    ¬ doc.IsQueryPart definition child ∧
    ¬ doc.HasMeaning (doc.InQuery definition holder) key child ∧ doc.Within child node

theorem Leads.unique {place place' place'' : Place}
    (h : doc.Leads definition parent child place place')
    (h' : doc.Leads definition parent child place place'') : place' = place'' := by
  have hstep : ∀ {key key' : String}, doc.step? child = some (.key key) →
      doc.step? child = some (.key key') → key = key' := by
    intro key key' hk hk'
    rw [hk] at hk'
    cases hk'
    rfl
  have hindex : ∀ {position : Nat} {key : String} {p : Prop}, doc.step? child =
      some (.index position) → doc.step? child = some (.key key) → p := by
    intro position key p hi hk
    rw [hi] at hk
    cases hk
  cases h with
  | member | inner =>
    cases h'
    rfl
  | item hi =>
    cases h' with
    | item | part => rfl
    | members hk | start hk => exact hindex hi hk
  | members hk hm =>
    cases h' with
    | members => rfl
    | item hi => exact hindex hi hk
    | start hk' hs => exact absurd (hstep hk hk' ▸ hs) hm.not_startsExpression
    | part hk' hno => exact absurd (hstep hk hk' ▸ hm) hno
  | start hk hs =>
    cases h' with
    | start => rfl
    | item hi => exact hindex hi hk
    | members hk' hm => exact absurd hs (hstep hk' hk ▸ hm).not_startsExpression
    | part hk' _ hno => exact absurd (hstep hk hk' ▸ hs) hno
  | part hk hno hno' =>
    cases h' with
    | item | part => rfl
    | members hk' hm => exact absurd (hstep hk' hk ▸ hm) hno
    | start hk' hs => exact absurd (hstep hk' hk ▸ hs) hno'

/-- The queries of a definition lie strictly within it. -/
theorem IsQueryPart.within (h : doc.IsQueryPart definition node) :
    doc.Within definition node ∧ definition < node := by
  have hprop : ∀ {top key child}, doc.prop? top key = some child →
      doc.Within top child ∧ top < child :=
    fun hp => ⟨within_of_container? (container?_of_prop? hp).1, (prop?_lt hp).1⟩
  have hmain : ∀ {main}, doc.query? definition = some main → doc.Within definition main ∧
      definition < main := by
    intro main hm
    obtain ⟨key, _, hk⟩ := prop?_of_query? hm
    exact hprop hk
  rcases h with hp | ⟨query, ⟨root, hroot, hbelow⟩, hnode⟩
  · exact hmain (Option.eq_some_of_filter_eq_some hp)
  · have hquery : doc.Within definition root ∧ definition < root := by
      unfold rootQueries at hroot
      split at hroot
      · next select hp =>
        obtain ⟨hw, hlt⟩ := hmain (Option.eq_some_of_filter_eq_some hp)
        have hsub := (within_of_mem_subqueries hroot).1
        exact ⟨hw.trans hsub, Nat.lt_of_lt_of_le hlt hsub.le⟩
      · exact hmain (Option.mem_toList.mp hroot)
    have hwithin : doc.Within root node := by
      refine hbelow.within.trans ?_
      rcases hnode with rfl | hbody
      · exact .refl
      · obtain ⟨key, _, hk⟩ := prop?_of_body? hbody
        exact (hprop hk).1
    exact ⟨hquery.1.trans hwithin, Nat.lt_of_lt_of_le hquery.2 hwithin.le⟩

theorem Stands.within {place : Place} (h : doc.Stands definition node place) :
    doc.Within definition node := by
  induction h with
  | definition => exact .refl
  | query hq => exact hq.within.1
  | step _ hc _ _ ih => exact .step hc ih

/-- A node has one place. -/
theorem Stands.unique {place place' : Place} (h : doc.Stands definition node place)
    (h' : doc.Stands definition node place') : place = place' := by
  have htop : ∀ {parent : NodeId} {p : Place} {q : Prop}, doc.container? definition = some parent →
      doc.Stands definition parent p → q :=
    fun hc hp => absurd hp.within.le (Nat.not_le_of_lt (container?_lt hc))
  induction h generalizing place' with
  | definition =>
    cases h' with
    | definition | query => rfl
    | step hp hc => exact htop hc hp
  | query hq =>
    cases h' with
    | definition | query => rfl
    | step _ _ hno => exact absurd hq hno
  | step hp hc hno hl ih =>
    cases h' with
    | definition => exact htop hc hp
    | query hq => exact absurd hq hno
    | step hp' hc' _ hl' =>
      obtain rfl := Option.some.inj (hc.symm.trans hc')
      obtain rfl := ih hp'
      exact hl.unique hl'

theorem IsMember.stands (h : doc.IsMember definition node) :
    doc.Stands definition node .declaration := by
  obtain ⟨map, hs, hc, hno⟩ := h
  exact .step hs hc hno .member

theorem not_belowUnknown_definition : ¬ doc.BelowUnknown definition definition := by
  rintro ⟨holder, key, child, hs, hp, _, _, hw⟩
  exact absurd hw.le (Nat.not_le_of_lt (Nat.lt_of_le_of_lt hs.within.le (prop?_lt hp).1))

/-! ## One step further -/

theorem within_step_iff {top : NodeId} (hc : doc.container? node = some parent) :
    doc.Within top node ↔ top = node ∨ doc.Within top parent := by
  constructor
  · intro h
    by_cases heq : top = node
    · exact .inl heq
    · exact .inr (h.container heq hc)
  · rintro (rfl | h)
    · exact .refl
    · exact .step hc h

theorem inQuery_step_iff (hc : doc.container? node = some parent) :
    doc.InQuery definition node ↔ doc.IsQueryPart definition node ∨
    doc.InQuery definition parent := by
  simp only [InQuery, within_step_iff hc, and_or_left, exists_or, exists_eq_right]

theorem isMember_step_iff (hc : doc.container? node = some parent) :
    doc.IsMember definition node ↔
      doc.Stands definition parent .members ∧ ¬ doc.IsQueryPart definition node := by
  constructor
  · rintro ⟨map, hs, hc', hno⟩
    obtain rfl := Option.some.inj (hc.symm.trans hc')
    exact ⟨hs, hno⟩
  · exact fun h => ⟨parent, h.1, hc, h.2⟩

theorem belowUnknown_step_iff (hc : doc.container? node = some parent) :
    doc.BelowUnknown definition node ↔ doc.BelowUnknown definition parent ∨
      doc.Stands definition parent .declaration ∧ ¬ doc.IsQueryPart definition node ∧
        ∃ key, doc.step? node = some (.key key) ∧
          ¬ doc.HasMeaning (doc.InQuery definition parent) key node := by
  constructor
  · rintro ⟨holder, key, child, hs, hp, hno, hmeaning, hw⟩
    rcases (within_step_iff hc).mp hw with rfl | hw
    · obtain ⟨hc', hstep⟩ := container?_of_prop? hp
      obtain rfl := Option.some.inj (hc.symm.trans hc')
      exact .inr ⟨hs, hno, key, hstep, hmeaning⟩
    · exact .inl ⟨holder, key, child, hs, hp, hno, hmeaning, hw⟩
  · rintro (⟨holder, key, child, hs, hp, hno, hmeaning, hw⟩ | ⟨hs, hno, key, hstep, hmeaning⟩)
    · exact ⟨holder, key, child, hs, hp, hno, hmeaning, .step hc hw⟩
    · have hp := follow?_of_container? hc hstep
      rw [follow?_key] at hp
      exact ⟨parent, key, node, hs, hp, hno, hmeaning, .refl⟩

end Document

namespace Walk

variable {doc : Document} {topology : Topology} {main next : NodeId} {walk : Walk} {key : String}

/-! ## Steps by properties -/

variable (doc next) in
/-- What a step by a property outside every context does, by the meaning of the property. -/
inductive Entered (inQuery : Prop) (key : String) (walk : Walk) : Walk → Prop where
  | members (map : MemberMap) : doc.HoldsMembers key next →
      Entered inQuery key walk { walk with memberMap := some map }
  | start {before : Walk} {context : Context} : doc.StartsExpression inQuery key next →
      before.member = walk.member → before.unknownKey = walk.unknownKey →
      Entered inQuery key walk (before.enter context)
  | part (host : NodeId) : ¬ doc.HoldsMembers key next → ¬ doc.StartsExpression inQuery key next →
      doc.HasMeaning inQuery key next → Entered inQuery key walk { walk with host }
  | unknown : ¬ doc.HasMeaning inQuery key next →
      Entered inQuery key walk { walk with unknownKey := some key }

variable (walk) in
theorem isSome_queryContext?_iff :
    (walk.queryContext? key).isSome = true ↔ key ∈ Document.clauseKeys := by
  unfold queryContext?
  split
  all_goals simp_all [Document.clauseKeys]

theorem entered_part {inQuery : Prop} (hno : ¬ doc.HoldsMembers key next)
    (hk : key ∈ Document.partKeys)
    (hr : key = "target" ∨ key = "targetAspect" → doc.isRefLike next = false) (host : NodeId) :
    Entered doc next inQuery key walk { walk with host } :=
  .part host hno (Document.not_startsExpression_of_partKeys hk hr) (.inr (.inr (.inl hk)))

/-- A property that is no expression elsewhere may be a clause of a query. -/
theorem entered_enterQueryProperty (hq : walk.query.isSome = true)
    (hno : ¬ doc.HoldsMembers key next) (hexpression : key ∉ Document.expressionKeys)
    (hat : ¬ nameStartsWith key "@" = true) (hpart : key ∉ Document.partKeys) :
    Entered doc next (walk.query.isSome = true) key walk (walk.enterQueryProperty key) := by
  have htarget : ¬ (key = "target" ∨ key = "targetAspect") := by
    rintro (rfl | rfl) <;> exact hpart (by decide)
  unfold enterQueryProperty
  split
  · next context hc =>
    have hclause := (isSome_queryContext?_iff walk).mp (by rw [hc]; rfl)
    exact .start (.inr (.inr (.inr ⟨hclause, hq⟩))) rfl rfl
  · next hc =>
    have hclause : key ∉ Document.clauseKeys := by
      rw [← isSome_queryContext?_iff walk, hc]
      decide
    have hs : ¬ doc.StartsExpression (walk.query.isSome = true) key next := by
      rintro (h | h | ⟨h, _⟩ | ⟨h, _⟩)
      · exact hexpression h
      · exact hat h
      · exact htarget h
      · exact hclause h
    split
    · next hargs => exact .part walk.host hno hs (.inr (.inr (.inr ⟨eq_of_beq hargs, hq⟩)))
    · next hargs =>
      refine .unknown ?_
      rintro (h | h | h | ⟨h, _⟩)
      · exact hno h
      · exact hs h
      · exact hpart h
      · exact hargs (beq_iff_eq.mpr h)

variable (doc topology main next walk) in
theorem entered_enterProperty (key : String) :
    Entered doc next (walk.query.isSome = true) key walk
      (walk.enterProperty doc topology main next key) := by
  unfold enterProperty
  split
  · next map hm =>
    obtain ⟨hkey, hobject⟩ := Option.filter_eq_some_iff.mp hm
    exact .members map ⟨by rw [hkey]; rfl, hobject⟩
  · next hm =>
    have hno : ¬ doc.HoldsMembers key next := by
      rintro ⟨hsome, hobject⟩
      obtain ⟨map, hmap⟩ := Option.isSome_iff_exists.mp hsome
      simp [hmap, hobject] at hm
    split
    · exact .start (.inl (by decide)) rfl rfl
    · exact .start (.inl (by decide)) rfl rfl
    · split
      · next href => exact .start (.inr (.inr (.inl ⟨.inl rfl, href⟩))) rfl rfl
      · next href => exact entered_part hno (by decide) (fun _ => Bool.eq_false_iff.mpr href) next
    · split
      · next href => exact .start (.inr (.inr (.inl ⟨.inr rfl, href⟩))) rfl rfl
      · next href => exact entered_part hno (by decide) (fun _ => Bool.eq_false_iff.mpr href) next
    · exact entered_part hno (by decide) (by simp) next
    · exact entered_part hno (by decide) (by simp) walk.host
    · exact .start (.inl (by decide)) rfl rfl
    · exact .start (.inl (by decide)) rfl rfl
    · exact .start (.inl (by decide)) rfl rfl
    · exact .start (.inl (by decide)) rfl rfl
    · next htype hincludes htarget haspect hreturns hitems hkeys hon hvalue hdefault =>
      have hexpression : key ∉ Document.expressionKeys := by
        simpa [Document.expressionKeys] using ⟨htype, hincludes, hkeys, hon, hvalue, hdefault⟩
      have hpart : key ∉ Document.partKeys := by
        simpa [Document.partKeys] using ⟨hreturns, hitems, htarget, haspect⟩
      split
      · next hat => exact .start (.inr (.inl hat)) rfl rfl
      · next hat =>
        split
        · next hq => exact entered_enterQueryProperty hq hno hexpression hat hpart
        · next hq =>
          refine .unknown ?_
          rintro (h | (h | h | ⟨h, _⟩ | ⟨_, h⟩) | h | ⟨_, h⟩)
          · exact hno h
          · exact hexpression h
          · exact hat h
          · exact h.elim htarget haspect
          · exact hq h
          · exact hpart h
          · exact hq h

/-! ## What a walk knows of its place -/

/-- The place of the node of a walk, as the walk knows it. -/
def place (walk : Walk) : Place :=
  if walk.context.isSome then .expression else if walk.memberMap.isSome then .members
    else .declaration

theorem place_of_members {map : MemberMap} (hc : walk.context = none)
    (hm : walk.memberMap = some map) :
    walk.place = .members := by
  simp [place, hc, hm]

theorem place_of_declaration (hc : walk.context = none) (hm : walk.memberMap = none) :
    walk.place = .declaration := by
  simp [place, hc, hm]

theorem place_eq_expression_iff : walk.place = .expression ↔ walk.context.isSome = true := by
  unfold place
  split
  · next h => simp [h]
  · next h =>
    split <;> simp [h]

variable (doc) in
/-- What the walk knows of its node is what the document says. -/
structure Shows (definition : NodeId) (walk : Walk) : Prop where
  place : doc.Stands definition walk.node walk.place
  query : walk.context = none → (walk.query.isSome = true ↔ doc.InQuery definition walk.node)
  unknown : walk.unknownKey.isSome = true ↔ doc.BelowUnknown definition walk.node
  member : walk.member = some walk.node ↔ doc.IsMember definition walk.node
  member_le : ∀ id, walk.member = some id → id ≤ walk.node

theorem Shows.expression {context : Context} (h : Shows doc main walk)
    (hc : walk.context = some context) :
    doc.Stands main walk.node .expression := by
  have hplace : walk.place = .expression := by rw [place_eq_expression_iff, hc]; rfl
  exact hplace ▸ h.place

theorem Shows.context_eq_some (h : Shows doc main walk)
    (hs : doc.Stands main walk.node .expression) :
    ∃ context, walk.context = some context :=
  Option.isSome_iff_exists.mp (place_eq_expression_iff.mp (h.place.unique hs))

theorem Shows.context_eq_none {place : Place} (h : Shows doc main walk)
    (hs : doc.Stands main walk.node place) (hne : place ≠ .expression) : walk.context = none := by
  rw [← h.place.unique hs, Ne, place_eq_expression_iff] at hne
  exact Option.not_isSome_iff_eq_none.mp hne

theorem shows_start : Shows doc main (start doc main) where
  place := .definition
  query := fun _ => by
    refine ⟨fun h => (by cases h), fun ⟨query, hq, hw⟩ => ?_⟩
    exact absurd hw.le (Nat.not_le_of_lt hq.within.2)
  unknown := ⟨fun h => (by cases h), fun h => absurd h Document.not_belowUnknown_definition⟩
  member := by
    refine ⟨fun h => (by cases h), fun ⟨map, hs, hc, _⟩ => ?_⟩
    exact absurd hs.within.le (Nat.not_le_of_lt (Document.container?_lt hc))
  member_le := fun _ h => by cases h

theorem shows_goTo {after : Walk} {place : Place} (step : Step) (hplace : after.place = place)
    (hstands : doc.Stands main next place)
    (hquery : after.context = none → (after.query.isSome = true ↔ doc.InQuery main next))
    (hunknown : after.unknownKey.isSome = true ↔ doc.BelowUnknown main next)
    (hmember : after.member = some next ↔ doc.IsMember main next)
    (hle : ∀ id, after.member = some id → id ≤ next) :
    Shows doc main (walk.goTo step next after) where
  place := hplace ▸ hstands
  query := hquery
  unknown := hunknown
  member := hmember
  member_le := hle

section

variable (h : Shows doc main walk) (hc : doc.container? next = some walk.node)
include h hc

/-- A member that the walk knows from before is not where it goes. -/
theorem Shows.member_lt {id : NodeId} (hm : walk.member = some id) : id < next :=
  Nat.lt_of_le_of_lt (h.member_le id hm) (Document.container?_lt hc)

/-- A step to a node that is no member, by a property that has a meaning if it is one of a
declaration. -/
theorem Shows.onward {after : Walk} {place : Place} (step : Step) (hplace : after.place = place)
    (hstands : doc.Stands main next place)
    (hquery : after.context = none → (after.query.isSome = true ↔ doc.InQuery main next))
    (hunknown : after.unknownKey = walk.unknownKey) (hmember : after.member = walk.member)
    (hmeaning : walk.place = .declaration → ¬ doc.IsQueryPart main next →
      ∀ key, doc.step? next = some (.key key) →
      doc.HasMeaning (doc.InQuery main walk.node) key next)
    (hno : walk.place = .members → doc.IsQueryPart main next) :
    Shows doc main (walk.goTo step next after) := by
  refine shows_goTo step hplace hstands hquery ?_ ?_ fun id hm =>
    Nat.le_of_lt (h.member_lt hc (hmember ▸ hm))
  · rw [Document.belowUnknown_step_iff hc, hunknown, h.unknown, or_iff_left]
    rintro ⟨hs, hpart, key, hkey, hmean⟩
    exact hmean (hmeaning (h.place.unique hs) hpart key hkey)
  · rw [Document.isMember_step_iff hc]
    constructor
    · exact fun hm => absurd (h.member_lt hc (hmember ▸ hm)) (Nat.lt_irrefl _)
    · exact fun ⟨hs, hpart⟩ => absurd (hno (h.place.unique hs)) hpart

variable (hcontext : walk.context = none) (hno : ¬ doc.IsQueryPart main next)
include hcontext hno

theorem Shows.query_step : walk.query.isSome = true ↔ doc.InQuery main next := by
  rw [Document.inQuery_step_iff hc, or_iff_right hno, h.query hcontext]

/-- A step into a map of members. -/
theorem Shows.toMember {map : MemberMap} (hmap : walk.memberMap = some map) (step : Step) :
    Shows doc main (walk.goTo step next
      (walk.leave.stepStructure doc topology main step next)) := by
  have hstands : doc.Stands main walk.node .members := place_of_members hcontext hmap ▸ h.place
  have hmap' : walk.leave.memberMap = some map := hmap
  unfold stepStructure
  rw [hmap']
  refine shows_goTo step (place_of_declaration hcontext rfl) (.step hstands hc hno .member)
    (fun _ => h.query_step hc hcontext hno) ?_ ?_ fun id hid => ?_
  · rw [Document.belowUnknown_step_iff hc, ← h.unknown, or_iff_left]
    · rfl
    · exact fun ⟨hs, _⟩ => by cases hstands.unique hs
  · exact ⟨fun _ => (Document.isMember_step_iff hc).mpr ⟨hstands, hno⟩, fun _ => rfl⟩
  · cases hid
    exact Nat.le_refl _

/-- A step by a property of a declaration. -/
theorem Shows.byProperty (hmap : walk.memberMap = none) (hs : doc.step? next = some (.key key)) :
    Shows doc main (walk.goTo (.key key) next
      (walk.leave.enterProperty doc topology main next key)) := by
  have hplace : walk.place = .declaration := place_of_declaration hcontext hmap
  have hstands : doc.Stands main walk.node .declaration := hplace ▸ h.place
  have hquery := h.query_step hc hcontext hno
  have hmeans : doc.HasMeaning (doc.InQuery main walk.node) key next → walk.place = .declaration →
      ¬ doc.IsQueryPart main next → ∀ other, doc.step? next = some (.key other) →
        doc.HasMeaning (doc.InQuery main walk.node) other next := by
    intro hm _ _ other hother
    rw [hs] at hother
    cases hother
    exact hm
  have hnot : walk.place = .members → doc.IsQueryPart main next := by
    rw [hplace]
    exact fun h => by cases h
  have hentered := entered_enterProperty doc topology main next walk.leave key
  rw [show (walk.leave.query.isSome = true) =
    doc.InQuery main walk.node from propext (h.query hcontext)] at hentered
  generalize walk.leave.enterProperty doc topology main next key = after at hentered ⊢
  cases hentered with
  | members map hm =>
    exact h.onward hc _ (place_of_members hcontext rfl) (.step hstands hc hno (.members hs hm))
      (fun _ => hquery) rfl rfl (hmeans (.inl hm)) hnot
  | start hexpr hmember hunknown =>
    exact h.onward hc _ (place_eq_expression_iff.mpr rfl) (.step hstands hc hno (.start hs hexpr))
      (fun hnone => by cases hnone) hunknown hmember (hmeans (.inr (.inl hexpr))) hnot
  | part host hm hexpr hmean =>
    exact h.onward hc _ (place_of_declaration hcontext hmap)
      (.step hstands hc hno (.part hs hm hexpr)) (fun _ => hquery) rfl rfl (hmeans hmean) hnot
  | unknown hmean =>
    have hpart : doc.Leads main walk.node next .declaration .declaration :=
      .part hs (fun hm => hmean (.inl hm)) fun hexpr => hmean (.inr (.inl hexpr))
    refine shows_goTo _ (place_of_declaration hcontext hmap) (.step hstands hc hno hpart)
      (fun _ => hquery)
      ?_ ?_ fun id hm => Nat.le_of_lt (h.member_lt hc hm)
    · exact ⟨fun _ => (Document.belowUnknown_step_iff hc).mpr (.inr ⟨hstands, hno, key, hs, hmean⟩),
        fun _ => rfl⟩
    · rw [Document.isMember_step_iff hc]
      refine ⟨fun hm => absurd (h.member_lt hc hm) (Nat.lt_irrefl _), fun ⟨hs, _⟩ => ?_⟩
      cases hstands.unique hs

/-- A step outside every context. -/
theorem Shows.outside {step : Step} (hs : doc.step? next = some step) :
    Shows doc main (walk.goTo step next
      (walk.leave.stepStructure doc topology main step next)) := by
  cases hmap : walk.memberMap with
  | some map => exact h.toMember hc hcontext hno hmap step
  | none =>
    have hmap' : walk.leave.memberMap = none := hmap
    have hplace : walk.place = .declaration := place_of_declaration hcontext hmap
    unfold stepStructure
    rw [hmap']
    cases step with
    | key key => exact h.byProperty hc hcontext hno hmap hs
    | index position =>
      refine h.onward hc _ (place_of_declaration hcontext hmap')
        (.step (hplace ▸ h.place) hc hno (.item hs)) (fun _ => h.query_step hc hcontext hno) rfl rfl
        (fun _ _ key hkey => ?_) ?_
      · rw [hs] at hkey
        cases hkey
      · rw [hplace]
        exact fun h => by cases h

end

/-- A step inside of a context. -/
theorem Shows.inside {context : Context} (h : Shows doc main walk)
    (hc : doc.container? next = some walk.node) (hcontext : walk.context = some context)
    (hno : ¬ doc.IsQueryPart main next) (step : Step) :
    Shows doc main (walk.goTo step next
      (walk.leave.stepExpression doc context step walk.segment walk.inSegments)) := by
  have hplace : walk.place = .expression := by rw [place_eq_expression_iff, hcontext]; rfl
  have hstep : ExpressionStep doc walk.leave context walk.segment walk.inSegments _ :=
    expressionStep_stepExpression context step _ _
  generalize walk.leave.stepExpression doc context step walk.segment walk.inSegments =
    after at hstep ⊢
  have hafter : after.context.isSome = true ∧ after.unknownKey = walk.unknownKey ∧
      after.member = walk.member := by
    have hsome : walk.leave.context.isSome = true := by rw [leave, hcontext]; rfl
    cases hstep with
    | stay | segment | decoration | segments => exact ⟨hsome, rfl, rfl⟩
    | filter | looseFilter | items | fixed | nested | join => exact ⟨rfl, rfl, rfl⟩
  refine h.onward hc step (place_eq_expression_iff.mpr hafter.1)
    (.step (hplace ▸ h.place) hc hno .inner) (fun hnone => ?_) hafter.2.1 hafter.2.2 ?_ ?_
  · rw [hnone] at hafter
    cases hafter.1
  · rw [hplace]
    exact fun h => by cases h
  · rw [hplace]
    exact fun h => by cases h

section

variable (hq : ∀ node, (topology.queryOf? node).isSome = true ↔ doc.IsQueryPart main node)
include hq

theorem Shows.advance (h : Shows doc main walk) (hc : doc.container? next = some walk.node)
    {step : Step} (hs : doc.step? next = some step) :
    Shows doc main (walk.advance doc topology main step next) := by
  rw [advance_eq]
  cases hquery : topology.queryOf? next with
  | some index =>
    have hpart : doc.IsQueryPart main next := (hq next).mp (by rw [hquery]; rfl)
    refine h.onward hc step (place_of_declaration rfl rfl) (.query hpart) (fun _ => ?_) rfl rfl
      (fun _ hno => absurd hpart hno) fun _ => hpart
    exact ⟨fun _ => (Document.inQuery_step_iff hc).mpr (.inl hpart), fun _ => rfl⟩
  | none =>
    have hno : ¬ doc.IsQueryPart main next := by
      rw [← hq next, hquery]
      decide
    cases hcontext : walk.context with
    | none => exact h.outside hc hcontext hno hs
    | some context => exact h.inside hc hcontext hno step

/-- The walk to a node knows what the document says of it. -/
theorem shows_walkTo? (hd : doc.isDefinition main = true) {node : NodeId}
    (hw : doc.Within main node) :
    ∃ walk, walkTo? doc topology main node = some walk ∧ walk.node = node ∧
    Shows doc main walk := by
  induction hw with
  | refl => exact ⟨_, walkTo?_definition hd, rfl, shows_start⟩
  | @step node parent hc hw ih =>
    obtain ⟨walk, hwalk, hn, hshows⟩ := ih
    obtain ⟨step, hs, _⟩ := Document.follow?_container hc
    exact ⟨_, walkTo?_step hd hw hc hs hwalk hn, rfl, hshows.advance hq (hn ▸ hc) hs⟩

end

end Walk

end SchemaRefs
