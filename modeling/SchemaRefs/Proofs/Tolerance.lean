import SchemaRefs.Proofs.Lockstep
import SchemaRefs.Proofs.Requests

/-!
# Tolerating partial documents

A session that tolerates partial documents gives every answer that a strict one gives. A topology
that can be built strictly is built in the same way with tolerance (`buildTopology_of_strict`), and
apart from building topologies the two sessions run the same programs. Resolutions, effective types,
environments and origins never go on after a failure, so an answer of the strict session comes from
calls that all succeeded (`Upholds`); the tolerant session makes the same calls, with the same
results.
-/

namespace SchemaRefs

open CacheM

/-! ## Answers that are upheld -/

namespace CacheM

variable {α β : Type}

/-- Whatever the first computation answers, the second answers as well, and leaves the same
cache. -/
def Upholds (x y : CacheM α) : Prop :=
  ∀ s a t, exec x s = (.ok a, t) → exec y s = (.ok a, t)

theorem Upholds.refl (x : CacheM α) : Upholds x x :=
  fun _ _ _ h => h

theorem Upholds.bind {x y : CacheM α} {f g : α → CacheM β} (hx : Upholds x y)
    (hf : ∀ a, Upholds (f a) (g a)) : Upholds (x >>= f) (y >>= g) := by
  intro s b t h
  rw [exec_bind] at h
  rcases hs : exec x s with ⟨e | a, u⟩
  · rw [hs] at h
    cases h
  · rw [hs] at h
    rw [exec_bind_ok (hx s a u hs)]
    exact hf a u b t h

theorem Upholds.holding {x y : CacheM α} (hx : Upholds x y) (holder : NodeId) :
    Upholds (holding holder x) (holding holder y) := by
  intro s a t h
  rw [exec_holding] at h ⊢
  rcases hs : exec x (s.enter holder) with ⟨e | b, u⟩
  · rw [hs] at h
    cases h
  · rw [hs] at h
    rw [hx _ b u hs]
    exact h

theorem Upholds.rethrow {x y : CacheM α} (hx : Upholds x y) (f g : ResolveError → ResolveError) :
    Upholds (tryCatch x fun e => throw (f e)) (tryCatch y fun e => throw (g e)) := by
  intro s a t h
  rw [exec_tryCatch] at h ⊢
  rcases hs : exec x s with ⟨e | b, u⟩
  · rw [hs] at h
    cases h
  · rw [hs] at h
    rw [hx s b u hs]
    exact h

theorem Upholds.getOrCompute {key : FactKey} {x y : CacheM key.Value} (hx : Upholds x y)
    (owner node : NodeId) :
    Upholds (getOrCompute key owner node x) (getOrCompute key owner node y) := by
  intro s a t h
  rw [exec_getOrCompute] at h ⊢
  cases hget : s.get? key node with
  | some value =>
    rw [hget] at h
    exact h
  | none =>
    rw [hget] at h
    rcases hs : exec x s with ⟨e | b, u⟩
    · rw [hs] at h
      cases h
    · rw [hs] at h
      rw [hx s b u hs]
      exact h

/-- The lookups of the second session uphold those of the first. -/
structure UpholdsLookups (k k' : Lookups) : Prop where
  inspect : ∀ path, Upholds (k.inspect path) (k'.inspect path)
  effectiveType : ∀ node, Upholds (k.effectiveType node) (k'.effectiveType node)

theorem UpholdsLookups.run {k k' : Lookups} (hk : UpholdsLookups k k') (inquiry : Inquiry α) :
    Upholds (inquiry.run k) (inquiry.run k') := by
  induction inquiry with
  | answer value => exact .refl _
  | failure error => exact .refl _
  | inspect path next ih => exact Upholds.bind (hk.inspect path) ih
  | effectiveType node next ih => exact Upholds.bind (hk.effectiveType node) ih

end CacheM

/-! ## Topologies -/

namespace Document

/-- What can be built strictly is built in the same way under any options. -/
theorem buildTopology_of_strict {doc : Document} {strict options : Options} {definition : NodeId}
    {topology : Topology} {links : List TopologyLink} (hs : strict.toleratePartial = false)
    (h : doc.buildTopology strict definition = .ok (topology, links)) :
    doc.buildTopology options definition = .ok (topology, links) := by
  have heased : Options.Eased True strict options := .inr ⟨hs, trivial⟩
  have hfollow := follows_buildTopology doc.mirrors_eq heased (Eq.refl definition)
  rw [h] at hfollow
  generalize doc.buildTopology options definition = y at hfollow
  cases hfollow with
  | @ok _ r hr =>
    have htopology := Topology.eq_of_related hr.1
    have hlinks := eq_of_forall₂ hr.2 fun _ _ hl => TopologyLink.eq_of_related hl
    exact congrArg Except.ok (Prod.ext htopology hlinks).symm

end Document

/-! ## Options matter for topologies only -/

namespace Model

/-- The same document under other options. -/
def under (m : Model) (options : Options) : Model :=
  { m with options }

section Rules

variable (m : Model) (options : Options)

theorem doc_under : (m.under options).doc = m.doc := rfl

theorem placeText_under : (m.under options).placeText = m.placeText := rfl

theorem targetOf?_under : (m.under options).targetOf? = m.targetOf? := rfl

theorem envWithin_under (node : NodeId) (preferStatic : Bool) (steps : Nat) (current : NodeId) :
    (m.under options).envWithin node preferStatic steps current =
      m.envWithin node preferStatic steps current := by
  induction steps generalizing current with
  | zero => rfl
  | succ steps ih =>
    simp only [envWithin, ih, doc_under, targetOf?_under]
    rfl

theorem envOf_under (node : NodeId) (preferStatic : Bool) :
    (m.under options).envOf node preferStatic = m.envOf node preferStatic :=
  m.envWithin_under options node preferStatic maxItemsNesting node

theorem memberPath_under (steps : List NodeId) (current : NodeId) :
    (m.under options).memberPath steps current = m.memberPath steps current := by
  induction steps generalizing current with
  | nil => rfl
  | cons step rest ih => simp only [memberPath, ih, doc_under, envOf_under]

theorem typeTarget_under : (m.under options).typeTarget = m.typeTarget := rfl

theorem originTarget_under : (m.under options).originTarget = m.originTarget := by
  funext marker
  simp only [originTarget, doc_under, memberPath_under]

theorem chainLink_under : (m.under options).chainLink = m.chainLink := by
  funext node
  simp only [chainLink, doc_under, typeTarget_under, originTarget_under]

variable (site : Site) (topology : Topology)

theorem aliasLink_under : (m.under options).aliasLink = m.aliasLink := rfl

theorem bindingIn_under : (m.under options).bindingIn = m.bindingIn := rfl

theorem lexicalFrom_under (name : String) (mixinsFirst visible : Bool) (steps : Nat)
    (index : Option Nat) :
    (m.under options).lexicalFrom topology name mixinsFirst visible steps index =
      m.lexicalFrom topology name mixinsFirst visible steps index := by
  induction steps generalizing index with
  | zero => cases index <;> rfl
  | succ steps ih =>
    cases index with
    | none => rfl
    | some index => simp only [lexicalFrom, ih, bindingIn_under]

theorem searchSources_under (name : String) (number : Nat) (aliases : List (String × AliasBinding))
    (found : Option (NodeId × String)) :
    (m.under options).searchSources topology name number aliases found =
      m.searchSources topology name number aliases found := by
  induction aliases generalizing found with
  | nil => rfl
  | cons entry rest ih =>
    obtain ⟨tableAlias, binding⟩ := entry
    simp only [searchSources, aliasEnv, aliasLink_under, envOf_under, doc_under, ih]

theorem headOf_under (name : String) (segments : Nat) :
    (m.under options).headOf site topology name segments =
      m.headOf site topology name segments := by
  cases hd : site.context.policy.dynamic <;>
    simp only [headOf, policyHead, boundHead, lexicalHead, lexicalFrom_under,
      aliasesVisible, dollarHead,
      dynamicHead, globalHead, parentHead, upHead, targetHead, queryHead, sourceHead,
      searchSources_under,
      baseHead, baseEnv, paramHead, envOf_under, doc_under, placeText_under, hd]

theorem followLinks_under (name : String) (link : Link) (rest : List String) :
    (m.under options).followLinks name link rest = m.followLinks name link rest := by
  induction rest generalizing name link with
  | nil => rfl
  | cons next rest ih => simp only [followLinks, ih, doc_under, envOf_under, placeText_under]

theorem resolveSite_under :
    (m.under options).resolveSite site topology = m.resolveSite site topology := by
  simp only [resolveSite, resolveReference, headOf_under, followLinks_under, closeLinks,
    needsFinalEnv, segmentsOf, envOf_under, doc_under]
  rfl

end Rules

/-! ## Sessions -/

variable {m : Model} (options : Options)

theorem upholds_prepare (hs : m.options.toleratePartial = false) (definition : NodeId) :
    Upholds (m.prepare definition) ((m.under options).prepare definition) := by
  unfold prepare
  show Upholds (if m.doc.isDefinition definition then _ else _)
    (if m.doc.isDefinition definition then _ else _)
  split
  · refine Upholds.bind (.refl _) fun stored => ?_
    cases stored with
    | some topology => exact .refl _
    | none =>
      dsimp only
      cases hb : m.doc.buildTopology m.options definition with
      | error e =>
        intro s a t h
        cases h
      | ok built =>
        obtain ⟨topology, links⟩ := built
        have hb' : (m.under options).doc.buildTopology (m.under options).options definition =
            .ok (topology, links) := Document.buildTopology_of_strict hs hb
        rw [hb']
        exact .refl _
  · exact .refl _

variable {k k' : Lookups}

theorem upholds_inspectWith (hs : m.options.toleratePartial = false) (hk : UpholdsLookups k k')
    (path : Path) : Upholds (m.inspectWith k path) ((m.under options).inspectWith k' path) := by
  refine Upholds.bind (.refl _) fun definition => ?_
  refine Upholds.bind (upholds_prepare options hs definition) fun topology => ?_
  refine Upholds.bind (.refl _) fun site => Upholds.bind (.refl _) fun stored => ?_
  cases stored with
  | some resolution => exact .refl _
  | none =>
    refine Upholds.bind (.refl _) fun cache => ?_
    split
    · exact .refl _
    · refine Upholds.rethrow (Upholds.holding ?_ _) _ _
      refine Upholds.getOrCompute (Upholds.bind (.refl _) fun _ => ?_) _ _
      rw [resolveSite_under]
      exact hk.run _

/-- A walk that comes to a type is the same walk in the other session. -/
theorem exec_walkChain_under (hk : UpholdsLookups k k') {start current type : NodeId} {steps : Nat}
    {marked : List NodeId} {walk : ChainWalk} {s t : Cache}
    (hrun : ChainRun m k start steps current marked s walk t) (ho : walk.outcome = .ok type) :
    exec ((m.under options).walkChain k' start steps current marked) s = (.ok walk, t) := by
  induction hrun with
  | known hget => exact exec_walkChain_known hget
  | structured hget hst => exact exec_walkChain_structured (m := m.under options) hget hst
  | circular _ | exhausted _ | unmarkable _ _ _ | broken _ _ _ _ => cases ho
  | @ended _ current _ _ t _ hget hst hmark hlink =>
    rw [exec_walkChain_succ (m := m.under options) hget hst,
      show exec ((m.under options).markChain current) _ = _ from hmark]
    dsimp only
    rw [chainLink_under, hk.run _ _ _ _ hlink]
  | @link _ current next _ _ t _ _ _ hget hst hmark hlink _ ih =>
    rw [exec_walkChain_succ (m := m.under options) hget hst,
      show exec ((m.under options).markChain current) _ = _ from hmark]
    dsimp only
    rw [chainLink_under, hk.run _ _ _ _ hlink]
    exact ih ho

theorem upholds_effectiveTypeWith (hk : UpholdsLookups k k') (node : NodeId) :
    Upholds (m.effectiveTypeWith k node) ((m.under options).effectiveTypeWith k' node) := by
  intro s a t h
  cases hget : s.get? .effectiveType node with
  | some state =>
    cases state with
    | done type =>
      rw [exec_effectiveTypeWith_known hget] at h ⊢
      exact h
    | inProgress =>
      rw [exec_effectiveTypeWith_circular hget] at h
      cases h
  | none =>
    obtain ⟨walk, u, hwalk, hrun, hex⟩ := exec_effectiveTypeWith_walk (m := m) (k := k) hget
    obtain ⟨walk', u', hwalk', _, hex'⟩ :=
      exec_effectiveTypeWith_walk (m := m.under options) (k := k') hget
    rw [hex] at h
    cases ho : walk.outcome with
    | error e =>
      rw [ho] at h
      dsimp only at h
      split at h <;> cases h
    | ok type =>
      have hsame := (exec_walkChain_under options hk hrun ho).symm.trans hwalk'
      cases hsame
      rw [ho] at h
      rw [hex', ho]
      exact h

/-- The lookups of a strict session are upheld at every depth. -/
theorem upholds_lookups (hs : m.options.toleratePartial = false) (depth : Nat) :
    UpholdsLookups (m.lookups depth) ((m.under options).lookups depth) := by
  induction depth with
  | zero => exact ⟨fun _ => .refl _, fun _ => .refl _⟩
  | succ depth ih =>
    exact ⟨upholds_inspectWith options hs ih, upholds_effectiveTypeWith options ih⟩

theorem upholds_ask (hs : m.options.toleratePartial = false) :
    UpholdsLookups m.ask (m.under options).ask :=
  upholds_lookups options hs m.nesting

theorem upholds_navigationEnv (hs : m.options.toleratePartial = false) (node : NodeId)
    (preferStatic : Bool) :
    Upholds (m.navigationEnv node preferStatic)
      ((m.under options).navigationEnv node preferStatic) := by
  unfold navigationEnv
  rw [envOf_under]
  exact (upholds_ask options hs).run _

theorem upholds_columnOrigin (hs : m.options.toleratePartial = false) (node : NodeId) :
    Upholds (m.columnOrigin node) ((m.under options).columnOrigin node) := by
  refine Upholds.bind (Upholds.bind (.refl _) fun owner => ?_) fun column => ?_
  · exact Upholds.bind (upholds_prepare options hs owner) fun _ => .refl _
  cases column with
  | none => exact .refl _
  | some column =>
    show Upholds (if (m.doc.refPath? column).isSome then _ else _)
      (if (m.doc.refPath? column).isSome then _ else _)
    split
    · exact Upholds.bind ((upholds_ask options hs).inspect _) fun _ => .refl _
    · exact .refl _

/-- The origin by the parent asks for one more origin and for an environment. -/
theorem upholds_inheritedOrigin (hs : m.options.toleratePartial = false)
    {originOf originOf' : NodeId → CacheM (Option NodeId)}
    (ho : ∀ node, Upholds (originOf node) (originOf' node)) (node : NodeId) :
    Upholds (m.inheritedOrigin originOf node)
      ((m.under options).inheritedOrigin originOf' node) := by
  refine Upholds.bind (.refl _) fun parent => ?_
  rw [doc_under]
  split
  · refine Upholds.bind (ho _) fun origin => ?_
    split
    · exact .refl _
    · exact Upholds.bind (upholds_navigationEnv options hs _ false) fun env => .refl _
  · exact .refl _

theorem upholds_originWithin (hs : m.options.toleratePartial = false) (depth : Nat)
    (node : NodeId) :
    Upholds (m.originWithin depth node) ((m.under options).originWithin depth node) := by
  induction depth generalizing node with
  | zero => exact .refl _
  | succ depth ih =>
    have hk := upholds_ask options hs
    refine Upholds.bind (.refl _) fun owner => ?_
    refine Upholds.bind (upholds_prepare options hs owner) fun _ => ?_
    refine Upholds.getOrCompute (Upholds.bind (.refl _) fun _ => ?_) _ _
    unfold computeOrigin
    rw [typeTarget_under, originTarget_under, doc_under]
    refine Upholds.bind (hk.run _) fun marked => ?_
    split
    · exact .refl _
    refine Upholds.bind (hk.run _) fun typed => ?_
    split
    · exact .refl _
    refine Upholds.bind (upholds_columnOrigin options hs node) fun found => ?_
    split
    · exact .refl _
    · exact upholds_inheritedOrigin options hs ih node

/-- A session that refuses partial documents. -/
def strictly (doc : Document) : Model :=
  ⟨doc, { toleratePartial := false }⟩

/-- A session that tolerates partial documents. -/
def tolerantly (doc : Document) : Model :=
  ⟨doc, { toleratePartial := true }⟩

/-- A session that tolerates partial documents gives every answer of a strict one, from every cache
and so from the empty one: topologies and links that can be built strictly are the same, and so are
resolutions, effective types, environments and origins. -/
theorem tolerance_keeps_answers (doc : Document) :
    (∀ definition topology links,
      doc.buildTopology (strictly doc).options definition = .ok (topology, links) →
      doc.buildTopology (tolerantly doc).options definition = .ok (topology, links)) ∧
    (∀ path, Upholds ((strictly doc).inspect path) ((tolerantly doc).inspect path)) ∧
    (∀ node, Upholds ((strictly doc).effectiveType node) ((tolerantly doc).effectiveType node)) ∧
    (∀ node preferStatic, Upholds ((strictly doc).navigationEnv node preferStatic)
      ((tolerantly doc).navigationEnv node preferStatic)) ∧
    ∀ node, Upholds ((strictly doc).origin node) ((tolerantly doc).origin node) := by
  have hk := upholds_ask (m := strictly doc) { toleratePartial := true } rfl
  exact ⟨fun _ _ _ => Document.buildTopology_of_strict rfl, hk.inspect, hk.effectiveType,
    upholds_navigationEnv (m := strictly doc) { toleratePartial := true } rfl,
    fun node => upholds_originWithin (m := strictly doc) { toleratePartial := true } rfl
      (node + 1) node⟩

/-! ## A partial document -/

/-- A view over the entity `E` whose only result member is `a`. -/
def viewOf (columns : List String) : Json :=
  .object [("query", .object [("SELECT", .object [
      ("from", .object [("ref", .array [.string "E"])]),
      ("columns", .array (columns.map fun name => .object [("ref", .array [.string name])]))])]),
    ("elements", .object [("a", .object [])])]

/-- Of the two views, the second has a column without result member. -/
def partialDocument : Document :=
  .ofDefinitions [
    ("E", .object [("elements", .object [("a", .object [("type", .string "cds.String")])])]),
    ("Whole", viewOf ["a"]), ("Partial", viewOf ["a", "b"])]

/-- The first column of a view. -/
def firstColumn (view : String) : Path :=
  ⟨[.key "definitions", .key view, .key "query", .key "SELECT", .key "columns", .index 0]⟩

/-- The column of the whole view is answered alike; that of the partial one only with tolerance. -/
theorem partialDocument_answers :
    (∃ resolution t, exec ((strictly partialDocument).inspect (firstColumn "Whole")) Cache.empty =
        (.ok resolution, t) ∧
      exec ((tolerantly partialDocument).inspect (firstColumn "Whole")) Cache.empty =
        (.ok resolution, t)) ∧
    (exec ((strictly partialDocument).inspect (firstColumn "Partial"))
      Cache.empty).1.toOption = none ∧
    (exec ((tolerantly partialDocument).inspect (firstColumn "Partial"))
      Cache.empty).1.toOption.isSome = true := by
  refine ⟨?_, by decide +kernel, by decide +kernel⟩
  have hsome : (exec ((strictly partialDocument).inspect (firstColumn "Whole"))
      Cache.empty).1.toOption.isSome = true := by decide +kernel
  rcases hx : exec ((strictly partialDocument).inspect (firstColumn "Whole"))
    Cache.empty with ⟨r, t⟩
  rw [hx] at hsome
  cases r with
  | error e => cases hsome
  | ok resolution =>
    exact ⟨resolution, t, rfl, (tolerance_keeps_answers partialDocument).2.1 _ _ _ _ hx⟩

end Model

end SchemaRefs
