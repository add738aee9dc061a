import SchemaRefs.Proofs.Inferences
import SchemaRefs.Proofs.SpelledWalks

/-!
# Inspecting one node by several paths

Paths that lead to one node need not be inspected alike: a definition is only found by its name, and
a position below a `ref` is a segment even where it stands for a property
(`spellings_of_one_node_differ`). Apart from that a session asks the same questions about a node,
whichever path leads there, up to the spelling of the outer references that filters and expanded
columns are looked up in (`Inquiry.Respelled`).

Main statement: paths that name their definition, and of which no property is taken for a segment,
are inspected with the same resolution or with failures of the same kind, and with the same effect
(`inspections_of_one_node`).
-/

namespace SchemaRefs

/-! ## Failures of the same kind -/

theorem ModelErrorKind.Akin.symm {loose : Prop} {a b : ModelErrorKind} (h : a.Akin loose b) :
    b.Akin loose a := by
  rcases h with rfl | ⟨hl, ha, hb⟩
  · exact .inl rfl
  · exact .inr ⟨hl, hb, ha⟩

theorem ModelErrorKind.Akin.trans {loose : Prop} {a b c : ModelErrorKind} (h : a.Akin loose b)
    (h' : b.Akin loose c) :
    a.Akin loose c := by
  rcases h with rfl | ⟨hl, ha, hb⟩
  · exact h'
  · rcases h' with rfl | ⟨_, _, hc⟩
    · exact .inr ⟨hl, ha, hb⟩
    · exact .inr ⟨hl, ha, hc⟩

/-- Model errors of kinds that are akin, or two assertions. -/
inductive ResolveError.Akin (loose : Prop) : ResolveError → ResolveError → Prop where
  | model {e e' : ModelError} : e.kind.Akin loose e'.kind → Akin loose (.model e) (.model e')
  | assertion (cause cause' : Assertion) : Akin loose (.assertion cause) (.assertion cause')

namespace ResolveError.Akin

variable {loose : Prop} {a b c : ResolveError}

theorem refl (e : ResolveError) : e.Akin loose e := by
  cases e with
  | model e => exact .model (.inl rfl)
  | assertion cause => exact .assertion cause cause

theorem symm (h : a.Akin loose b) : b.Akin loose a := by
  cases h with
  | model hkind => exact .model hkind.symm
  | assertion cause cause' => exact .assertion cause' cause

theorem trans (h : a.Akin loose b) (h' : b.Akin loose c) : a.Akin loose c := by
  cases h with
  | model hkind =>
    cases h' with
    | model hkind' => exact .model (hkind.trans hkind')
  | assertion cause _ =>
    cases h' with
    | assertion _ cause' => exact .assertion cause cause'

end ResolveError.Akin

/-- The same result or failures of the same kind, and the same cache. -/
structure SameEffect {α : Type} (loose : Prop) (x y : Except ResolveError α × Cache) : Prop where
  outcome : Resembles (ResolveError.Akin loose) Eq x.1 y.1
  cache : x.2 = y.2

namespace SameEffect

variable {α : Type} {loose : Prop} {x y z : Except ResolveError α × Cache}

theorem refl (x : Except ResolveError α × Cache) : SameEffect loose x x := by
  obtain ⟨outcome, cache⟩ := x
  cases outcome with
  | error e => exact ⟨.error (.refl e), rfl⟩
  | ok a => exact ⟨.ok rfl, rfl⟩

theorem symm (h : SameEffect loose x y) : SameEffect loose y x := by
  refine ⟨?_, h.cache.symm⟩
  have hout := h.outcome
  generalize x.1 = a, y.1 = b at hout
  cases hout with
  | error he => exact .error he.symm
  | ok heq => exact .ok heq.symm

theorem trans (h : SameEffect loose x y) (h' : SameEffect loose y z) : SameEffect loose x z := by
  refine ⟨?_, h.cache.trans h'.cache⟩
  have hout := h.outcome
  have hout' := h'.outcome
  generalize x.1 = a, y.1 = b, z.1 = c at hout hout'
  cases hout with
  | error he =>
    cases hout' with
    | error he' => exact .error (he.trans he')
  | ok heq =>
    cases hout' with
    | ok heq' => exact .ok (heq.trans heq')

end SameEffect

/-! ## Inquiries -/

namespace Inquiry

variable {R : Path → Path → Prop} {loose : Prop} {α β : Type}

/-- The inquiries ask the same questions, up to the spelling of paths, and come to the same
answers. -/
inductive Respelled (R : Path → Path → Prop) (loose : Prop) : Inquiry α → Inquiry α → Prop where
  | answer (value : α) : Respelled R loose (.answer value) (.answer value)
  | failure {e e' : ResolveError} : e.Akin loose e' → Respelled R loose (.failure e) (.failure e')
  | inspect {path path' : Path} {next next' : Resolution → Inquiry α} :
      path = path' ∨ R path path' → (∀ r, Respelled R loose (next r) (next' r)) →
      Respelled R loose (.inspect path next) (.inspect path' next')
  | effectiveType (node : NodeId) {next next' : NodeId → Inquiry α} :
      (∀ type, Respelled R loose (next type) (next' type)) →
      Respelled R loose (.effectiveType node next) (.effectiveType node next')

theorem Respelled.refl (x : Inquiry α) : Respelled R loose x x := by
  induction x with
  | answer value => exact .answer value
  | failure error => exact .failure (.refl error)
  | inspect path next ih => exact .inspect (.inl rfl) ih
  | effectiveType node next ih => exact .effectiveType node ih

theorem Respelled.bind {x y : Inquiry α} {f g : α → Inquiry β} (h : Respelled R loose x y)
    (hf : ∀ a, Respelled R loose (f a) (g a)) : Respelled R loose (x >>= f) (y >>= g) := by
  induction h with
  | answer value => exact hf value
  | failure he => exact .failure he
  | inspect hpath _ ih => exact .inspect hpath ih
  | effectiveType node _ ih => exact .effectiveType node ih

end Inquiry

namespace Model

open Inquiry CacheM

variable {m : Model} {R : Path → Path → Prop} {loose : Prop} {site : Site} {topology : Topology}
  {base : Option BaseRef} {path path' : Path}

/-! ## What stands at a site -/

section

variable (h : Option.Rel (BaseRef.Respelled R) site.base base)
include h

theorem respelled_baseEnv : (m.baseEnv site).Respelled R loose (m.baseEnv { site with base }) := by
  unfold baseEnv
  rcases h.some_or_none with ⟨b, b', hb, hb', hpath⟩ | ⟨hb, hb'⟩
  · cases hpath with
    | segment position hpath =>
      rw [hb, hb']
      refine Respelled.bind (.inspect (.inr hpath) fun r => .answer r) fun outer => ?_
      cases outer.links[position]? with
      | none => exact .failure (.assertion _ _)
      | some link => exact .refl _
    | column hpath =>
      rw [hb, hb']
      exact Respelled.bind (.inspect (.inr hpath) fun r => .answer r) fun outer => .refl _
  · rw [hb, hb']
    exact .refl _

theorem respelled_baseHead (name : String) (scope : Scope) :
    (m.baseHead site name scope).Respelled R loose (m.baseHead { site with base } name scope) :=
  (respelled_baseEnv h).bind fun _ => .refl _

theorem respelled_dynamicHead (name : String) (segments : Nat) (dynamic : Dynamic) :
    (m.dynamicHead site topology name segments dynamic).Respelled R loose
      (m.dynamicHead { site with base } topology name segments dynamic) := by
  cases dynamic with
  | expand | inline | refTarget => exact respelled_baseHead h name _
  | _ => exact .refl _

theorem respelled_policyHead (name : String) (segments : Nat) :
    (m.policyHead site topology name segments).Respelled R loose
      (m.policyHead { site with base } topology name segments) := by
  refine Respelled.bind (.refl _) fun found => ?_
  cases found with
  | some head => exact .refl _
  | none => exact respelled_dynamicHead h name segments _

theorem respelled_headOf (name : String) (segments : Nat) :
    (m.headOf site topology name segments).Respelled R loose
      (m.headOf { site with base } topology name segments) := by
  unfold headOf
  dsimp only
  split
  · exact .refl _
  · split
    · exact .refl _
    · exact respelled_policyHead h name segments

theorem respelled_resolveReference : (m.resolveReference site topology).Respelled R loose
    (m.resolveReference { site with base } topology) := by
  refine Respelled.bind (.refl _) fun names => ?_
  cases names with
  | nil => exact .refl _
  | cons name rest =>
    refine Respelled.bind (respelled_headOf h name _) fun head => ?_
    exact .refl _

theorem respelled_resolveSite : (m.resolveSite site topology).Respelled R loose
    (m.resolveSite { site with base } topology) := by
  unfold resolveSite
  dsimp only
  cases site.kind with
  | definition | member => exact .refl _
  | reference => exact respelled_resolveReference h

end

/-! ## Two runs -/

variable {s : Cache} {k : Lookups} {depth : Nat} {T : Theory m}

theorem akin_annotate {site' : Site} {e e' : ResolveError} (h : e.Akin loose e') :
    (m.annotate site e).Akin loose (m.annotate site' e') := by
  cases h with
  | model hkind => exact .model hkind
  | assertion cause cause' => exact .assertion cause cause'

/-- Questions that are answered alike make no difference to what is asked next. -/
theorem sameEffect_run {α : Type} {x y : Inquiry α} {post : α → Prop} (hk : T.Answers depth k)
    (hagree : ∀ path path', R path path' → ∀ s, T.Ready depth s →
      SameEffect loose (exec (k.inspect path) s) (exec (k.inspect path') s))
    (h : x.Respelled R loose y) (hx : x.Meets T.contract post) (hs : T.Ready depth s) :
    SameEffect loose (exec (x.run k) s) (exec (y.run k) s) := by
  induction h generalizing s with
  | answer value => exact .refl _
  | failure he => exact ⟨.error he, rfl⟩
  | @inspect path path' next next' hpath _ ih =>
    have hsame : SameEffect loose (exec (k.inspect path) s) (exec (k.inspect path') s) := by
      rcases hpath with rfl | hpath
      · exact .refl _
      · exact hagree path path' hpath s hs
    have hkeeps := hk.inspect path hx.1 s hs
    rw [Inquiry.run, Inquiry.run, exec_bind, exec_bind]
    rcases hl : exec (k.inspect path) s with ⟨outcome, t⟩
    rcases hr : exec (k.inspect path') s with ⟨outcome', t'⟩
    rw [hl, hr] at hsame
    rw [hl] at hkeeps
    obtain ⟨hout, hcache⟩ := hsame
    dsimp only at hout hcache
    subst hcache
    cases hout with
    | error he => exact ⟨.error he, rfl⟩
    | ok heq =>
      subst heq
      exact ih _ (hx.2 _ hkeeps.2.2) hkeeps.1
  | @effectiveType node next next' _ ih =>
    have hkeeps := hk.effectiveType node hx.1 s hs
    rw [Inquiry.run, Inquiry.run, exec_bind, exec_bind]
    rcases hl : exec (k.effectiveType node) s with ⟨outcome, t⟩
    rw [hl] at hkeeps
    cases outcome with
    | error e => exact .refl _
    | ok type => exact ih type (hx.2 type hkeeps.2.2) hkeeps.1

theorem sameEffect_inspectSite {site' : Site} (hT : T.Lawful) (hk : T.Answers depth k)
    (hagree : ∀ path path', R path path' → ∀ s, T.Ready depth s →
      SameEffect loose (exec (k.inspect path) s) (exec (k.inspect path') s)) (hpath : T.path path)
    (hsite : m.siteAt? path = .ok (topology, site)) (h : site.Respelled R site')
    (hs : T.Ready (depth + 1) s) :
    SameEffect loose (exec (m.inspectSite k path topology site) s)
      (exec (m.inspectSite k path' topology site') s) := by
  obtain @⟨base, hbase⟩ := h
  rw [exec_inspectSite, exec_inspectSite]
  dsimp only
  cases s.get? .resolution site.holder with
  | some r => exact .refl _
  | none =>
    dsimp only
    by_cases hfree : site.holder ∈ s.resolving
    · rw [if_pos hfree, if_pos hfree]
      exact ⟨.error (akin_annotate (.model (.inl rfl))), rfl⟩
    · rw [if_neg hfree, if_neg hfree]
      have hrun := sameEffect_run hk hagree (respelled_resolveSite hbase)
        (hT.site path topology site hpath hsite) (hs.begun hsite hfree)
      generalize exec ((m.resolveSite site topology).run k) (begun s site.holder) = left at hrun ⊢
      generalize exec ((m.resolveSite { site with base } topology).run k) (begun s site.holder) =
        right at hrun ⊢
      obtain ⟨outcome, t⟩ := left
      obtain ⟨outcome', t'⟩ := right
      obtain ⟨hout, hcache⟩ := hrun
      dsimp only at hout hcache
      subst hcache
      cases hout with
      | error he => exact ⟨.error (akin_annotate he), rfl⟩
      | ok heq =>
        subst heq
        exact .refl _

/-! ## Paths to one node -/

variable (m) in
/-- The path is the one of a plain walk through a definition that can be prepared, and the other one
that of the node where the walk ends. -/
def Spells (loose : Prop) (path path' : Path) : Prop :=
  ∃ main topology links, m.doc.isDefinition main = true ∧
    m.doc.buildTopology m.options main = .ok (topology, links) ∧
    Walk.Spells m.doc topology main loose path path'

theorem exec_inspectWith_unsited {main : NodeId} {e : ModelError} {t : Cache}
    (hd : m.doc.pathDefinition path = .ok main) (hex : exec (m.prepare main) s = (.ok topology, t))
    (ha : Site.analyze m.doc topology path = .error e) :
    exec (m.inspectWith k path) s = (.error (.model e), t) := by
  have hfirst : exec (ofExcept (m.doc.pathDefinition path)) s =
      (.ok main, s) := by rw [exec_ofExcept, hd]
  unfold inspectWith
  rw [exec_bind_ok hfirst, exec_bind_ok hex, exec_bind, exec_ofExcept, ha]

theorem exec_inspectWith_sited {main : NodeId} {links : List TopologyLink} {t : Cache}
    (hd : m.doc.pathDefinition path = .ok main)
    (hb : m.doc.buildTopology m.options main = .ok (topology, links))
    (hex : exec (m.prepare main) s = (.ok topology, t))
    (ha : Site.analyze m.doc topology path = .ok site) :
    exec (m.inspectWith k path) s = exec (m.inspectSite k path topology site) t := by
  have hat := siteAt?_of_analyze hd hb ha
  obtain ⟨_, hd', _⟩ := siteAt?_eq_ok hat
  rw [hd] at hd'
  cases hd'
  exact exec_inspectWith_prepared hat hex

theorem sameEffect_inspectWith (hT : T.Lawful) (hall : ∀ path, T.path path) (hk : T.Answers depth k)
    (hagree : ∀ path path', m.Spells loose path path' → ∀ s, T.Ready depth s →
      SameEffect loose (exec (k.inspect path) s) (exec (k.inspect path') s))
    (h : m.Spells loose path path') (hs : T.Ready (depth + 1) s) :
    SameEffect loose (exec (m.inspectWith k path) s) (exec (m.inspectWith k path') s) := by
  obtain ⟨main, topology, links, hd, hb, walk, hplain, rfl, rfl⟩ := h
  have hpath := (hplain.along hd).definition
  have hpath' := m.doc.pathDefinition_pathOf (hplain.owner? hd)
  obtain ⟨t, hex, ht, hst⟩ : ∃ t, exec (m.prepare main) s = (.ok topology, t) ∧ Orderly m t ∧
      Steady s t := by
    rcases prepare_cases hs.agrees.orderly hd with ⟨_, _, t, hb', hex, ht, hst, _⟩ | ⟨_, hb', _⟩
    · rw [hb] at hb'
      cases hb'
      exact ⟨t, hex, ht, hst⟩
    · rw [hb] at hb'
      cases hb'
  have hready : T.Ready (depth + 1) t :=
    ⟨hs.agrees.steady ht hst, (Extends.steady hst).room_eq ▸ hs.room⟩
  generalize ha : Site.analyze m.doc topology walk.trail = found
  generalize ha' : Site.analyze m.doc topology (m.doc.pathOf walk.node) = found'
  have hsites := hplain.analyze hd
  rw [ha, ha'] at hsites
  cases hsites with
  | error he =>
    rw [exec_inspectWith_unsited hpath hex ha, exec_inspectWith_unsited hpath' hex ha']
    exact ⟨.error (.model he), rfl⟩
  | ok hsite =>
    rw [exec_inspectWith_sited hpath hb hex ha, exec_inspectWith_sited hpath' hb hex ha']
    refine sameEffect_inspectSite hT hk hagree (hall _) (siteAt?_of_analyze hpath hb ha)
      (hsite.mono fun _ _ hspells => ?_) hready
    exact ⟨main, topology, links, hd, hb, hspells⟩

theorem sameEffect_lookups (hT : T.Lawful) (hall : ∀ path, T.path path) (depth : Nat)
    (h : m.Spells loose path path') (hs : T.Ready depth s) :
    SameEffect loose (exec ((m.lookups depth).inspect path) s)
      (exec ((m.lookups depth).inspect path') s) := by
  induction depth generalizing path path' s with
  | zero => exact .refl _
  | succ depth ih =>
    exact sameEffect_inspectWith hT hall (Theory.answers_lookups hT depth)
      (fun _ _ h _ hs => ih h hs) h hs

/-- In every session, a path of a plain walk is inspected like that of its node. -/
theorem sameEffect_inspect (h : m.Spells loose path path') (hs : m.Reachable s) :
    SameEffect loose (exec (m.inspect path) s) (exec (m.inspect path') s) := by
  have hsettled := settled_of_reachableBy governs_all hs
  exact sameEffect_lookups (lawful_rules governs_all.closed) (fun _ => trivial) m.nesting h
    ⟨hsettled.agrees, room_le s⟩

end Model

/-! ## The definition of a path -/

namespace Document

variable {doc : Document} {path : Path} {node : NodeId}

/-- A path that names its definition, and leads anywhere, leads into it. -/
theorem pathDefinition_of_nodeAt? (h : doc.nodeAt? path = some node)
    (hname : path.definitionName?.isSome = true) :
    ∃ main, doc.pathDefinition path = .ok main ∧ doc.owner? node = some main := by
  obtain ⟨name, hname⟩ := Option.isSome_iff_exists.mp hname
  have hmain : ∃ main, doc.definition? name = some main := by
    obtain ⟨steps⟩ := path
    unfold Path.definitionName? at hname
    split at hname
    · next name' inner heq =>
      cases hname
      cases heq
      obtain ⟨definitions, hdefs, hrest⟩ := Option.bind_eq_some_iff.mp h
      obtain ⟨main, hmain, _⟩ := Option.bind_eq_some_iff.mp hrest
      rw [follow?_key, prop?_definitions] at hdefs
      cases hdefs
      rw [follow?_key] at hmain
      exact ⟨main, hmain⟩
    · cases hname
  obtain ⟨main, hmain⟩ := hmain
  have hd : doc.pathDefinition path = .ok main := by
    rw [pathDefinition, hname]
    dsimp only
    rw [hmain]
  rw [nodeAt?_of_pathDefinition hd] at h
  exact ⟨main, hd, owner?_eq_some_iff.mpr
    ⟨isDefinition_of_definition? hmain, within_of_followAll? h⟩⟩

theorem eq_key_of_ownStep {id : NodeId} {step : Step} {name : String}
    (h : doc.ownStep id step = .key name) (hname : name.toList.all Char.isDigit = false) :
    step = .key name := by
  cases step with
  | key name' => exact h
  | index position =>
    by_cases hobject : doc.isObject id = true
    · rw [ownStep_of_object hobject] at h
      exact Walk.absurd_of_digits (Step.all_isDigit_positionText position) (Step.key.inj h) hname
    · rw [ownStep_of_not_object (Bool.eq_false_iff.mpr hobject)] at h
      cases h

/-- A path leads into a definition under its name, or to no definition, or names one by a
position. -/
theorem definitionName?_eq_none_iff (h : doc.nodeAt? path = some node) :
    path.definitionName? = none ↔ doc.owner? node = none ∨
    ∃ position, path.get? 1 = some (.index position) := by
  constructor
  · intro hnone
    cases ho : doc.owner? node with
    | none => exact .inl rfl
    | some main =>
      right
      obtain ⟨hd, hw⟩ := owner?_eq_some_iff.mp ho
      obtain ⟨name, hs, _⟩ := exists_name_of_isDefinition hd
      obtain ⟨own, hsteps, hlength, hown⟩ := stepsTo_of_followAll? h
      rw [stepsTo_root, List.nil_append, stepsTo_of_within hd hs hw] at hsteps
      subst hsteps
      obtain ⟨_ | ⟨first, _ | ⟨second, rest⟩⟩⟩ := path
      · cases hlength
      · cases hlength
      · obtain ⟨_, _, hfirst⟩ := hown 0 first rfl
        cases eq_key_of_ownStep (Option.some.inj hfirst).symm (by decide)
        cases second with
        | index position => exact ⟨position, rfl⟩
        | key name' => cases hnone
  · rintro (ho | ⟨position, hget⟩)
    · refine Option.not_isSome_iff_eq_none.mp fun hname => ?_
      obtain ⟨main, _, hmain⟩ := pathDefinition_of_nodeAt? h hname
      rw [ho] at hmain
      cases hmain
    · unfold Path.definitionName?
      split
      · next name inner heq => cases hget
      · rfl

end Document

namespace Model

open CacheM

variable {m : Model} {s : Cache} {loose : Prop} {path : Path} {node : NodeId}

section

variable (m)

/-- A step of the walk along a path is of a kind. -/
def anyStep (kind : Document → Topology → Walk → Step → NodeId → Bool) (path : Path) : Bool :=
  match m.doc.pathDefinition path with
  | .error _ => false
  | .ok main =>
    match m.doc.buildTopology m.options main with
    | .error _ => false
    | .ok (topology, _) =>
      Walk.anyStep m.doc topology main (kind m.doc topology) path.inner (Walk.start m.doc main)

/-- On the way along the path, a property of digits is taken for a segment of a reference. -/
def takesForSegment (path : Path) : Bool :=
  m.anyStep Walk.takesForSegment path

/-- On the way along the path, a property of digits that has no meaning is not noted. -/
def overlooks (path : Path) : Bool :=
  m.anyStep Walk.overlooks path

end

theorem spells_pathOf {main : NodeId} {topology : Topology} {links : List TopologyLink}
    (h : m.doc.nodeAt? path = some node) (hd : m.doc.pathDefinition path = .ok main)
    (hb : m.doc.buildTopology m.options main = .ok (topology, links))
    (hseg : m.takesForSegment path = false) (hover : m.overlooks path = true → loose) :
    m.Spells loose path (m.doc.pathOf node) := by
  have hsteps : ∀ kind, m.anyStep kind path =
      Walk.anyStep m.doc topology main (kind m.doc topology) path.inner
        (Walk.start m.doc main) := by
    intro kind
    unfold anyStep
    rw [hd]
    dsimp only
    rw [hb]
  have hdef := Document.isDefinition_of_pathDefinition hd
  obtain ⟨name, hpath, hmain⟩ := Document.steps_of_pathDefinition hd
  rw [Document.nodeAt?_of_pathDefinition hd] at h
  obtain ⟨walk, hplain, rfl, htrail⟩ := Walk.Plain.start.advanceAll h ((hsteps _).symm.trans hseg)
    fun ho => hover ((hsteps _).trans ho)
  refine ⟨main, topology, links, hdef, hb, walk, hplain, ?_, rfl⟩
  rw [Walk.trail_start hdef, Document.pathOf,
    Document.stepsTo_definition hdef (Document.container?_of_prop? hmain).2] at htrail
  exact congrArg Path.mk (htrail.trans hpath.symm)

theorem exec_inspect_unprepared {main : NodeId} {e : ModelError} (hs : Orderly m s)
    (hd : m.doc.pathDefinition path = .ok main)
    (hb : m.doc.buildTopology m.options main = .error e) :
    exec (m.inspect path) s = (.error (.model (m.buildError main e)), s) := by
  have hfirst : exec (ofExcept (m.doc.pathDefinition path)) s =
      (.ok main, s) := by rw [exec_ofExcept, hd]
  rcases prepare_cases hs (Document.isDefinition_of_pathDefinition hd) with ⟨_, _, _, hb', _⟩
    | ⟨_, hb', hex⟩
  · rw [hb] at hb'
    cases hb'
  · rw [hb] at hb'
    cases hb'
    exact (exec_bind_ok hfirst _).trans (exec_bind_error hex _)

/-- A path that names its definition, and of which no property is taken for a segment, is inspected
like that of its node. -/
theorem sameEffect_pathOf (hs : m.Reachable s) (h : m.doc.nodeAt? path = some node)
    (hname : path.definitionName?.isSome = true) (hseg : m.takesForSegment path = false)
    (hover : m.overlooks path = true → loose) :
    SameEffect loose (exec (m.inspect path) s) (exec (m.inspect (m.doc.pathOf node)) s) := by
  obtain ⟨main, hd, ho⟩ := Document.pathDefinition_of_nodeAt? h hname
  have hd' := Document.pathDefinition_pathOf ho
  have horderly := (settled_of_reachableBy governs_all hs).agrees.orderly
  cases hb : m.doc.buildTopology m.options main with
  | error e =>
    rw [exec_inspect_unprepared horderly hd hb, exec_inspect_unprepared horderly hd' hb]
    exact .refl _
  | ok built => exact sameEffect_inspect (spells_pathOf h hd hb hseg hover) hs

/-- Two paths to one node, in any session. A path that does not name its definition fails as
invalid: either its node belongs to no definition, or the definition is named by a position. Where
both paths name it and no property of digits is taken for a segment, both are inspected with the
same resolution or with failures of the same kind, and leave the session in the same state; only
that a property of digits which one of them names by its position, outside of all contexts and maps
of members, can decide whether a missing reference is unsupported or invalid. -/
theorem inspections_of_one_node (m : Model) {s : Cache} (hs : m.Reachable s) {node : NodeId}
    {p q : Path} (hp : m.doc.nodeAt? p = some node) (hq : m.doc.nodeAt? q = some node) :
    (p.definitionName? = none ↔
      m.doc.owner? node = none ∨ ∃ position, p.get? 1 = some (.index position)) ∧
    (p.definitionName? = none → FailsWith .invalidPath (exec (m.inspect p) s).1) ∧
    (p.definitionName?.isSome = true → q.definitionName?.isSome = true →
      m.takesForSegment p = false → m.takesForSegment q = false →
      SameEffect (m.overlooks p = true ∨ m.overlooks q = true)
        (exec (m.inspect p) s) (exec (m.inspect q) s)) := by
  refine ⟨Document.definitionName?_eq_none_iff hp, fun hnone => ?_, fun hnp hnq hsp hsq => ?_⟩
  · have hd : m.doc.pathDefinition p = .error (.noDefinitionPath p) := by
      rw [Document.pathDefinition, hnone]
    have hfirst : exec (ofExcept (m.doc.pathDefinition p)) s =
        (.error (.model (.noDefinitionPath p)), s) := by
      rw [exec_ofExcept, hd]
    exact ⟨_, congrArg Prod.fst (exec_bind_error hfirst _), rfl⟩
  · exact (sameEffect_pathOf hs hp hnp hsp .inl).trans (sameEffect_pathOf hs hq hnq hsq .inr).symm

/-- A definition and an element are named by digits; the value of the element has a filter. -/
def positionModel : Model :=
  ⟨.ofDefinitions [
    ("B", .object [("elements", .object [("b", .object [])])]),
    ("0", .object [("elements", .object [
      ("a", .object [("target", .string "B")]),
      ("1", .object [("value", .object [("ref", .array [
        .object [("id", .string "a"), ("where",
          .array [.object [("ref", .array [.string "b"])]])]])])])])])], {}⟩

/-- The path of the filter, with the definition and the element as given. -/
def filterPath (definition element : Step) : Path :=
  ⟨[.key "definitions", definition, .key "elements", element, .key "value", .key "ref", .index 0,
    .key "where", .index 0]⟩

def filterResolution : Resolution :=
  { links := [⟨4, none⟩], art := some 4, parent := some 9, scope := .refTarget, env := none,
    context := .refWhere }

/-- The filter is looked up in the environment of an outer reference, which is known by a path with
a position. -/
theorem positionModel_inspections_agree :
    positionModel.doc.nodeAt? (filterPath (.key "0") (.index 1)) = some 15 ∧
    positionModel.doc.nodeAt? (filterPath (.key "0") (.key "1")) = some 15 ∧
    positionModel.doc.nodeAt? (filterPath (.index 0) (.key "1")) = some 15 ∧
    (exec (positionModel.inspect (filterPath (.key "0") (.key "1"))) Cache.empty).1 =
      .ok filterResolution ∧
    (exec (positionModel.inspect (filterPath (.key "0") (.index 1))) Cache.empty).1 =
      .ok filterResolution ∧
    FailsWith .invalidPath
      (exec (positionModel.inspect (filterPath (.index 0) (.key "1"))) Cache.empty).1 := by
  have hp : positionModel.doc.nodeAt? (filterPath (.key "0") (.index 1)) =
      some 15 := by decide +kernel
  have hq : positionModel.doc.nodeAt? (filterPath (.key "0") (.key "1")) =
      some 15 := by decide +kernel
  have hd : positionModel.doc.nodeAt? (filterPath (.index 0) (.key "1")) =
      some 15 := by decide +kernel
  have hr : (exec (positionModel.inspect (filterPath (.key "0") (.key "1"))) Cache.empty).1 =
      .ok filterResolution :=
    eq_ok_of_toOption (by decide +kernel)
  have hsame := ((inspections_of_one_node positionModel .new hq hp).2.2 (by decide) (by decide)
    (by decide +kernel) (by decide +kernel)).outcome
  rw [hr] at hsame
  obtain ⟨hnone, hfails, _⟩ := inspections_of_one_node positionModel .new hd hq
  refine ⟨hp, hq, hd, hr, ?_, hfails (hnone.mpr (.inr ⟨0, rfl⟩))⟩
  generalize (exec (positionModel.inspect (filterPath (.key "0") (.index 1))) Cache.empty).1 =
    outcome at hsame
  cases hsame with
  | ok heq => rw [heq]

/-! ## Paths that are read differently -/

/-- Definitions, properties and members named by digits: the definition `0`, the member `0` below a
`ref`, and the property `7` of a definition. -/
def spellingModel : Model :=
  ⟨.ofDefinitions [
    ("0", .object [("elements", .object [])]),
    ("D", .object [
      ("elements", .object [
        ("0", .object [("type", .string "cds.String")]),
        ("x", .object [("value", .object [("ref", .object [
          ("0", .object [("type", .object [("ref", .array [.string "0"])])])])])])]),
      ("7", .object [("ref", .array [.string "0"])])])], {}⟩

/-- The path of the type below a `ref` that is an object. -/
def typePath (member : Step) : Path :=
  ⟨[.key "definitions", .key "D", .key "elements", .key "x", .key "value", .key "ref",
    member, .key "type"]⟩

/-- A definition is found by its name and not by its position; the type below a `ref` that is an
object names a definition or an element; and a reference below a property without meaning is
unsupported or invalid. -/
theorem spellings_of_one_node_differ :
    (spellingModel.doc.nodeAt? ⟨[.key "definitions", .key "0"]⟩ = some 2 ∧
      spellingModel.doc.nodeAt? ⟨[.key "definitions", .index 0]⟩ = some 2 ∧
      (exec (spellingModel.inspect ⟨[.key "definitions", .key "0"]⟩) Cache.empty).1.isOk = true ∧
      FailsWith .invalidPath
        (exec (spellingModel.inspect ⟨[.key "definitions", .index 0]⟩) Cache.empty).1) ∧
    (spellingModel.doc.nodeAt? (typePath (.key "0")) = some 12 ∧
      spellingModel.doc.nodeAt? (typePath (.index 0)) = some 12 ∧
      (exec (spellingModel.inspect (typePath (.key "0"))) Cache.empty).1.toOption.bind
        Resolution.art = some 2 ∧
      (exec (spellingModel.inspect (typePath (.index 0))) Cache.empty).1.toOption.bind
        Resolution.art = some 6) ∧
    (spellingModel.doc.nodeAt? ⟨[.key "definitions", .key "D", .key "7"]⟩ = some 15 ∧
      spellingModel.doc.nodeAt? ⟨[.key "definitions", .key "D", .index 7]⟩ = some 15 ∧
      FailsWith .unsupportedContext
        (exec (spellingModel.inspect ⟨[.key "definitions", .key "D", .key "7"]⟩) Cache.empty).1 ∧
      FailsWith .invalidReference
        (exec (spellingModel.inspect ⟨[.key "definitions", .key "D", .index 7]⟩)
          Cache.empty).1) := by
  refine ⟨⟨?_, ?_, ?_, ?_⟩, ⟨?_, ?_, ?_, ?_⟩, ?_, ?_, ?_, ?_⟩ <;> decide +kernel

end Model

end SchemaRefs
