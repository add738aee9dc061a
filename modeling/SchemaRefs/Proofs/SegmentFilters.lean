import SchemaRefs.Proofs.Holders
import SchemaRefs.Proofs.PathSpellings
import SchemaRefs.Proofs.ReferenceLists

/-!
# Filters on segments

A filter on a segment names the reference that it decorates by a path and a position. If there is a
site at that path, it is a reference, and the position is one of its segments, unless the reference
is itself the value of a property `ref` (`Site.filtered_reference`): the path then stands for the
object around it, which has no list of segments.
-/

namespace SchemaRefs

variable {position : Nat} {outer path : Path} {site : Site}

namespace Walk

variable {doc : Document} {topology : Topology} {main next : NodeId} {walk : Walk} {path : Path}
  {step : Step} {position : Nat} {context : Context}

/-! ## Steps into segments -/

theorem segment_stepExpression {atSegment : Option Nat} {atSegments : Bool}
    (hs : walk.segment = none)
    (h : (walk.stepExpression doc context step atSegment atSegments).segment = some position) :
    step = .index position ∧ atSegments = true := by
  cases step with
  | index index =>
    simp only [stepExpression] at h
    split at h
    · next hin =>
      cases h
      exact ⟨rfl, hin⟩
    · rw [hs] at h
      cases h
  | key key =>
    -- no property leads to a segment
    have hnone :
        (walk.stepExpression doc context (.key key) atSegment atSegments).segment = none := by
      simp only [stepExpression]
      split
      · split <;> exact hs
      · split <;> (try split) <;> (try split) <;> exact hs
    rw [hnone] at h
    cases h

theorem inSegments_stepExpression {atSegment : Option Nat} {atSegments : Bool}
    (hs : walk.inSegments = false)
    (h : (walk.stepExpression doc context step atSegment atSegments).inSegments = true) :
    step = .key "ref" ∧ atSegment = none := by
  have hno : ∀ {p : Prop}, walk.inSegments = true → p := fun h => by rw [hs] at h; cases h
  cases step with
  | index index =>
    simp only [stepExpression] at h
    split at h <;> exact hno h
  | key key =>
    simp only [stepExpression] at h
    split at h
    · split at h <;> exact hno h
    · split at h
      · exact ⟨rfl, rfl⟩
      · split at h <;> exact hno h
      · split at h <;> exact hno h
      · exact hno h
      · split at h <;> exact hno h
      · split at h <;> exact hno h
      · split at h <;> exact hno h
      · split at h
        · exact hno h
        · split at h <;> exact hno h

theorem stepExpression_of_advance {after : Walk} (hq : topology.queryOf? next = none)
    (hc : walk.context = some context)
    (h : walk.advance doc topology main step next = walk.goTo step next after) :
    walk.goTo step next after =
      walk.goTo step next (walk.leave.stepExpression doc context step walk.segment
        walk.inSegments) := by
  rw [← h, advance_eq, hq, hc]

/-! ## What a walk knows of segments -/

variable (doc topology main) in
/-- The path leads to the holder of a reference, whose segments are those at a node. -/
structure LeadsToSegments (path : Path) (holder list : NodeId) : Prop where
  along : ∃ walk, Along doc topology main path walk ∧ walk.node = holder ∧
    walk.context.isSome = true ∧ walk.segment = none
  segments : doc.prop? holder "ref" = some list

variable (doc topology main) in
/-- What a walk has noted of segments is as in the document. -/
structure NotesSegments (walk : Walk) : Prop where
  trail : Along doc topology main walk.trail walk
  list : walk.inSegments = true → ∀ holder path, walk.refHolder = some (holder, path) →
    LeadsToSegments doc topology main path holder walk.node
  segment : ∀ position, walk.segment = some position →
    ∀ holder path, walk.refHolder = some (holder, path) →
    ∃ list, LeadsToSegments doc topology main path holder list ∧
      doc.follow? list (.index position) = some walk.node
  base : ∀ path position, walk.base = some (.segment path position) →
    ∃ holder list segment, LeadsToSegments doc topology main path holder list ∧
      doc.follow? list (.index position) = some segment

variable (topology) in
theorem notesSegments_start (hd : doc.isDefinition main = true) :
    NotesSegments doc topology main (start doc main) where
  trail := along_start hd
  list h := by cases h
  segment _ h := by cases h
  base _ _ h := by cases h

theorem NotesSegments.advance (h : NotesSegments doc topology main walk)
    (hf : doc.follow? walk.node step = some next) :
    NotesSegments doc topology main (walk.advance doc topology main step next) := by
  have htrail := h.trail.push hf
  obtain ⟨after, hs, heq⟩ := stepped_advance doc topology main next walk step
  have hstep := heq
  rw [heq] at htrail ⊢
  cases hs with
  | query _ =>
    exact ⟨htrail, fun h => (by cases h), fun _ h => (by cases h), fun _ _ h => by cases h⟩
  | member | position => exact ⟨htrail, fun h => (by cases h), fun _ h => (by cases h), h.base⟩
  | property _ _ _ hp =>
    cases hp <;> exact ⟨htrail, fun h => (by cases h), fun _ h => (by cases h), h.base⟩
  | expression hq hc he =>
    have hexpr := stepExpression_of_advance hq hc hstep
    cases he with
    | stay | fixed | nested | join =>
      exact ⟨htrail, fun h => (by cases h), fun _ h => (by cases h), h.base⟩
    | looseFilter | decoration =>
      exact ⟨htrail, fun h => (by cases h), fun _ h => (by cases h), h.base⟩
    | items =>
      exact ⟨htrail, fun h => (by cases h), fun _ h => (by cases h), fun _ _ h => by cases h⟩
    | filter hat hr =>
      refine ⟨htrail, fun h => (by cases h), fun _ h => (by cases h), fun path position hb => ?_⟩
      cases hb
      obtain ⟨list, hl, hi⟩ := h.segment _ hat _ _ hr
      exact ⟨_, list, walk.node, hl, hi⟩
    | segment position hin =>
      refine ⟨htrail, fun h => (by cases h), fun position' hp holder path hr => ?_, h.base⟩
      cases hp
      obtain ⟨rfl, _⟩ := segment_stepExpression rfl (congrArg Walk.segment hexpr).symm
      exact ⟨walk.node, h.list hin holder path hr, hf⟩
    | segments =>
      refine ⟨htrail, fun _ holder path hr => ?_, fun _ h => (by cases h), h.base⟩
      cases hr
      obtain ⟨rfl, hat⟩ := inSegments_stepExpression rfl (congrArg Walk.inSegments hexpr).symm
      rw [Document.follow?_key] at hf
      exact ⟨⟨walk, h.trail, rfl, by rw [hc]; rfl, hat⟩, hf⟩

theorem Along.notesSegments (h : Along doc topology main path walk) :
    NotesSegments doc topology main walk :=
  advanceAll_keeps (fun _ _ _ hP hf => hP.advance hf) h.walked
    (notesSegments_start topology (Document.isDefinition_of_pathDefinition h.definition))

/-- A reference with segments at the end of a walk, unless the walk ends at the value of a property
`ref`. -/
theorem NotesSegments.finish {site : Site} {list : NodeId}
    (h : NotesSegments doc topology main walk) (hc : walk.context.isSome = true)
    (hs : walk.segment = none) (hlist : doc.prop? walk.node "ref" = some list)
    (hf : walk.finish doc main path = .ok site) :
    site.kind = .reference ∧ (doc.refPath? site.holder = some list ∨
      doc.refPath? site.holder = none ∧ doc.hasProp site.holder "ref" = true) := by
  rcases finish_cases hf with rfl | ⟨holder, outer, context, hr, _, hin, rfl⟩
  · obtain ⟨context, hc⟩ := Option.isSome_iff_exists.mp hc
    refine ⟨by simp only [here, kindHere, hc, site], ?_⟩
    have hholder : (walk.here main).holder = walk.node := rfl
    rw [hholder, Document.refPath?, Document.hasProp, hlist, Option.filter_some]
    split
    · exact .inl rfl
    · exact .inr ⟨rfl, rfl⟩
  · refine ⟨rfl, .inr ?_⟩
    have hin : walk.inSegments = true := hin.resolve_right (by rw [hs]; decide)
    have hp := (h.list hin holder outer hr).segments
    have harray : doc.isArray walk.node = false := by
      cases ha : doc.isArray walk.node with
      | false => rfl
      | true =>
        rw [Document.prop?_of_isArray ha] at hlist
        cases hlist
    have hholder : (walk.site main .reference holder context).holder = holder := rfl
    rw [hholder, Document.refPath?, Document.hasProp, hp, Option.filter_some,
      if_neg (by rw [harray]; decide)]
    exact ⟨rfl, rfl⟩

end Walk

variable {doc : Document} {topology : Topology}

theorem Site.leadsToSegments_of_base {definition : NodeId}
    (hd : doc.pathDefinition path = .ok definition) (h : Site.analyze doc topology path = .ok site)
    (hb : site.base = some (.segment outer position)) :
    ∃ holder list segment, Walk.LeadsToSegments doc topology definition outer holder list ∧
      doc.follow? list (.index position) = some segment := by
  obtain ⟨walk, hnotes, rfl⟩ := Site.here_of_analyze hd h
    (Walk.notesSegments_start topology (Document.isDefinition_of_pathDefinition hd))
    fun _ _ _ hP hf => hP.advance hf
  exact hnotes.base outer position hb

/-- A filter decorates a segment of a reference in the same definition. -/
theorem Site.pathDefinition_of_base {definition : NodeId}
    (hd : doc.pathDefinition path = .ok definition) (h : Site.analyze doc topology path = .ok site)
    (hb : site.base = some (.segment outer position)) :
    doc.pathDefinition outer = .ok definition := by
  obtain ⟨_, _, _, ⟨⟨_, halong, _⟩, _⟩, _⟩ := Site.leadsToSegments_of_base hd h hb
  exact halong.definition

/-- A filter decorates a segment of the reference at the path that it names. If the reference has no
list of segments, it is the object around the value of a property `ref`. -/
theorem Site.filtered_reference {site' : Site} (h : Site.analyze doc topology path = .ok site)
    (hb : site.base = some (.segment outer position))
    (h' : Site.analyze doc topology outer = .ok site') :
    site'.kind = .reference ∧
      ((∃ list, doc.refPath? site'.holder = some list ∧ position < (doc.itemsAt list).length) ∨
        (doc.refPath? site'.holder = none ∧ doc.hasProp site'.holder "ref" = true)) := by
  obtain ⟨definition, hd⟩ := Site.pathDefinition_of_analyze h
  obtain ⟨holder, list, segment, ⟨⟨earlier, halong, rfl, hc, hs⟩, hlist⟩, hf⟩ :=
    Site.leadsToSegments_of_base hd h hb
  rw [halong.analyze] at h'
  obtain ⟨hk, href⟩ := halong.notesSegments.finish hc hs hlist h'
  refine ⟨hk, href.imp_left fun hr => ⟨list, hr, ?_⟩⟩
  have harray := (Document.prop?_of_refPath? hr).2
  unfold Document.isArray at harray
  split at harray
  · next items hv =>
    simp only [Document.follow?, hv] at hf
    rw [Document.itemsAt, hv]
    exact (List.getElem?_eq_some_iff.mp hf).1
  · cases harray

end SchemaRefs
