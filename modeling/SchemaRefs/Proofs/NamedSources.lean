import SchemaRefs.Proofs.Inferences
import SchemaRefs.Proofs.LongChains

/-!
# Sources that name a definition

A source of a query can be a single name, which is then the name of a definition. Its environment is
the effective type of the definition, if this has elements. A session asks for it when it resolves
the source, and keeps it with the resolution. So the environment is found if the effective type is
(`NamesSource.found_aliasEnv`), and the failure of the effective type is that of the source
(`NamesSource.fails_aliasEnv`).
-/

namespace SchemaRefs.Model

open Inquiry CacheM

variable {m : Model} {s : Cache} {depth : Nat} {item definition type : NodeId} {topology : Topology}
  {site : Site}

/-! ## Environments of structures -/

variable (m) in
/-- The node declares elements, and no items in their place. -/
structure OffersElements (type : NodeId) : Prop where
  items : m.doc.itemType? type = none
  elements : (m.doc.elements? type).isSome = true

theorem OffersElements.hasStructure (h : m.OffersElements type) :
    m.doc.hasStructure type = true := by
  simp [Document.hasStructure, h.elements]

theorem OffersElements.envOf_eq (h : m.OffersElements type) (node : NodeId) :
    ∃ after, m.envOf node = typeOf node >>= after ∧ after type = .answer (some type) := by
  refine ⟨_, rfl, ?_⟩
  dsimp only
  rw [h.items]
  dsimp only
  rw [if_pos h.elements]
  rfl

/-! ## Resolutions of sources -/

variable (m) in
/-- A node of the document is a source of a query, and consists of the name of a definition. -/
structure NamesSource (item definition : NodeId) (topology : Topology) (site : Site) : Prop where
  found : m.siteAt? (m.doc.pathOf item) = .ok (topology, site)
  kind : site.kind = .reference
  context : site.context = .source
  notParam : m.doc.flag site.holder "param" = false
  notGlobal : m.doc.flag site.holder "global" = false
  name : ∃ name, (m.segmentsOf site.holder).mapM m.segmentName = .ok [name] ∧
    m.doc.definition? name = some definition

/-- The resolution of a source that names a definition. -/
def sourceResolution (site : Site) (definition type : NodeId) : Resolution :=
  { links := [⟨definition, some type⟩], art := some definition,
    parent := site.member <|> some site.main,
    scope := .global, env := none, context := site.context }

namespace NamesSource

variable (h : m.NamesSource item definition topology site)
include h

theorem owned : (m.doc.owner? definition).isSome = true := by
  obtain ⟨_, _, hdefinition⟩ := h.name
  rw [Document.owner?_of_isDefinition
    (Document.isDefinition_iff.mpr (Document.container?_of_prop? hdefinition).1)]
  rfl

/-- All that is asked is the environment of the definition. -/
theorem resolveSite_eq : ∃ after, m.resolveSite site topology = m.envOf definition >>= after ∧
    ∀ type, after (some type) = .answer (sourceResolution site definition type) := by
  obtain ⟨name, hnames, hdefinition⟩ := h.name
  have hhead : m.headOf site topology name 1 = .answer (plainHead definition .global) := by
    rw [headOf, h.notParam, h.notGlobal, if_neg Bool.false_ne_true, if_neg Bool.false_ne_true,
      policyHead_eq, h.context]
    change m.headFrom site topology name 1 none = _
    rw [headFrom, h.context]
    change m.globalHead site name 1 = _
    rw [globalHead, hdefinition]
    rfl
  have hneeds : m.needsFinalEnv site = true := by
    rw [needsFinalEnv, h.context]
    rfl
  rw [resolveSite, h.kind]
  dsimp only
  rw [resolveReference_eq hnames, List.length_singleton, hhead, answer_bind, plainHead,
    resolutionFrom, followLinks, pure_eq, answer_bind, closeLinks, List.getLast?_singleton]
  dsimp only
  rw [if_neg (by rw [hneeds]; exact Bool.false_ne_true), Inquiry.bind_assoc]
  exact ⟨_, rfl, fun type => rfl⟩

section

variable (helements : m.OffersElements type)
include helements

theorem exec_resolveSite_ok {k : Lookups} {t u : Cache}
    (htype : exec (k.effectiveType definition) t = (.ok type, u)) :
    exec ((m.resolveSite site topology).run k) t =
      (.ok (sourceResolution site definition type), u) := by
  obtain ⟨after, heq, hafter⟩ := h.resolveSite_eq
  obtain ⟨unwrap, hunwrap, hsome⟩ := helements.envOf_eq definition
  have hasked : exec ((typeOf definition).run k) t = (.ok type, u) := exec_bind_ok htype _
  have henv : exec ((m.envOf definition).run k) t = (.ok (some type), u) := by
    rw [hunwrap, exec_run_bind_ok hasked, hsome]
    rfl
  rw [heq, exec_run_bind_ok henv, hafter]
  rfl

theorem denotes (hends : m.ChainEnds definition type) :
    m.Denotes (m.doc.pathOf item) (sourceResolution site definition type) := by
  obtain ⟨after, heq, hafter⟩ := h.resolveSite_eq
  obtain ⟨unwrap, hunwrap, hsome⟩ := helements.envOf_eq definition
  have htype : m.Infers (typeOf definition) type := by
    obtain ⟨n, hn⟩ := hends
    refine ⟨n, ?_⟩
    rw [typeOf, infer, if_pos h.owned, hn]
    rfl
  rw [denotes_iff_infers h.found, heq, infers_bind_iff]
  refine ⟨some type, ?_, by rw [hafter]; exact infers_answer.mpr rfl⟩
  rw [hunwrap, infers_bind_iff]
  exact ⟨type, htype, by rw [hsome]; exact infers_answer.mpr rfl⟩

end

theorem exec_resolveSite_error {k : Lookups} {t u : Cache} {e : ResolveError}
    (htype : exec (k.effectiveType definition) t = (.error e, u)) :
    exec ((m.resolveSite site topology).run k) t = (.error e, u) := by
  obtain ⟨after, heq, _⟩ := h.resolveSite_eq
  have hasked : exec ((typeOf definition).run k) t = (.error e, u) := exec_bind_error htype _
  rw [heq]
  exact exec_run_bind_error (exec_run_bind_error hasked _) _

/-! ## Environments of sources -/

/-- A session prepares for the resolution of the source, and knows the same as before. -/
theorem exec_inspect_begins (hs : m.meanings.Ready (depth + 1) s)
    (hfree : site.holder ∉ s.resolving) :
    ∃ t, exec ((m.lookups (depth + 1)).inspect (m.doc.pathOf item)) s =
        exec (m.inspectSite (m.lookups depth) (m.doc.pathOf item) topology site) t ∧
      m.meanings.Ready (depth + 1) t ∧ site.holder ∉ t.resolving ∧
      (∀ holder, t.get? .resolution holder = s.get? .resolution holder) ∧
      ∀ node, t.get? .effectiveType node = s.get? .effectiveType node := by
  obtain ⟨t, _, hex, horderly, hsteady, _⟩ :=
    exec_inspectWith_ok (m.lookups depth) hs.agrees.orderly h.found
  refine ⟨t, hex, ⟨hs.agrees.steady horderly hsteady,
    (Extends.steady hsteady).room_eq ▸ hs.room⟩, ?_,
    fun holder => hsteady.same .resolution holder rfl (by decide),
    fun node => hsteady.same .effectiveType node rfl (by decide)⟩
  rw [hsteady.resolving]
  exact hfree

section

variable (helements : m.OffersElements type) (hends : m.ChainEnds definition type)
  (hs : m.meanings.Ready (depth + 1) s) (hfree : site.holder ∉ s.resolving)
  (htype : ∀ t, m.meanings.Ready depth t →
    (∀ node, t.get? .effectiveType node = s.get? .effectiveType node) →
    ∃ u, exec ((m.lookups depth).effectiveType definition) t = (.ok type, u) ∧
      u.get? .effectiveType definition = some (.done type))
include helements hends hs hfree htype

/-- The source is resolved if the effective type of the definition is found, in every session that
knows the same effective types. -/
theorem found_inspect :
    ∃ u, exec ((m.lookups (depth + 1)).inspect (m.doc.pathOf item)) s =
        (.ok (sourceResolution site definition type), u) ∧
      (s.get? .resolution site.holder = none →
        u.get? .effectiveType definition = some (.done type)) := by
  obtain ⟨t, hex, ht, htfree, hkept, htypes⟩ := h.exec_inspect_begins hs hfree
  rw [hex]
  -- the resolution is known, or the effective type is asked for
  cases hget : t.get? .resolution site.holder with
  | some r =>
    have hdenotes := denotes_of_resolves ⟨item, rfl⟩
      ⟨topology, site, h.found, ht.agrees.kept _ _ hget⟩
    obtain rfl := hdenotes.unique (h.denotes helements hends)
    refine ⟨t, by rw [exec_inspectSite, hget], fun hnone => ?_⟩
    rw [hkept, hnone] at hget
    cases hget
  | none =>
    obtain ⟨v, hv, hknown⟩ := htype (begun t site.holder) (ht.begun h.found htfree) htypes
    obtain ⟨u, hu, _, _, hremembers⟩ := Theory.exec_inspectSite_new lawful_meanings
      (Theory.answers_lookups lawful_meanings depth) ⟨item, rfl⟩ h.found ht hget htfree
    rw [h.exec_resolveSite_ok helements hv] at hu hremembers
    exact ⟨u, hu, fun _ => hremembers .effectiveType definition _ hknown⟩

/-- The environment of the source is found, and the session knows the effective type from then
on. -/
theorem found_aliasEnv (other : Topology) :
    ∃ t, exec ((m.aliasEnv other (.path item)).run (m.lookups (depth + 1))) s =
        (.ok (some type), t) ∧
      m.meanings.Ready (depth + 1) t ∧ Extends s t ∧
      (s.get? .resolution site.holder = none →
        t.get? .effectiveType definition = some (.done type)) := by
  obtain ⟨u, hu, hknown⟩ := h.found_inspect helements hends hs hfree htype
  obtain ⟨hready, hext, _⟩ :=
    (Theory.answers_lookups (lawful_meanings (m := m)) (depth + 1)).inspect _ ⟨item, rfl⟩ s hs
  rw [hu] at hready hext
  have hasked : exec ((resolutionAt (m.doc.pathOf item)).run (m.lookups (depth + 1))) s =
      (.ok (sourceResolution site definition type), u) := exec_bind_ok hu _
  have hlink : exec ((m.aliasLink other (.path item)).run (m.lookups (depth + 1))) s =
      (.ok ⟨definition, some type⟩, u) := exec_run_bind_ok hasked _
  exact ⟨u, exec_run_bind_ok hlink _, hready, hext, hknown⟩

end

/-- A source that is not resolved yet fails as the effective type of the definition does. -/
theorem fails_aliasEnv {kind : ModelErrorKind} (hs : m.meanings.Ready (depth + 1) s)
    (hnone : s.get? .resolution site.holder = none) (hfree : site.holder ∉ s.resolving)
    (htype : ∀ t, m.meanings.Ready depth t →
      (∀ node, t.get? .effectiveType node = s.get? .effectiveType node) →
      FailsWith kind (exec ((m.lookups depth).effectiveType definition) t).1) (other : Topology) :
    FailsWith kind (exec ((m.aliasEnv other (.path item)).run (m.lookups (depth + 1))) s).1 := by
  obtain ⟨t, hex, ht, htfree, hkept, htypes⟩ := h.exec_inspect_begins hs hfree
  obtain ⟨e, he, hkind⟩ := htype (begun t site.holder) (ht.begun h.found htfree) htypes
  have hresolve := h.exec_resolveSite_error (Prod.ext he rfl)
  have hfails : (exec (m.inspectSite (m.lookups depth) (m.doc.pathOf item) topology site) t).1 =
      .error (m.annotate site (.model e)) :=
        exec_inspectSite_error ((hkept _).trans hnone) htfree hresolve
  rw [← hex] at hfails
  have hasked : FailsWith kind (exec ((resolutionAt (m.doc.pathOf item)).run
      (m.lookups (depth + 1))) s).1 :=
    ⟨_, congrArg Prod.fst (exec_bind_error (Prod.ext hfails rfl) _), hkind⟩
  exact failsWith_run_bind (failsWith_run_bind hasked _) _

end NamesSource

/-! ## Sources on a chain -/

section

variable {length i : Nat} {chain : Nat → NodeId} (hchain : m.FiniteChain length chain)
  (hplain : ∀ i ≤ length, m.doc.hasStructure (chain i) = false → m.IsPlain (chain i))
  (h : m.NamesSource item (chain i) topology site) (hs : m.meanings.Ready (depth + 1) s)
  (hfree : site.holder ∉ s.resolving)
include hchain hplain h hs hfree

/-- The end of the chain is the environment of the source, if a walk reaches it, or a node whose
effective type is known. -/
theorem NamesSource.found_on_chain (helements : m.OffersElements (chain length)) (hi : i ≤ length)
    (hunmarked : ∀ node, s.get? .effectiveType node ≠ some .inProgress)
    (hreach : length < i + maxChainLength ∨ ∃ j, i ≤ j ∧ j ≤ length ∧ j ≤ i + maxChainLength ∧
      s.get? .effectiveType (chain j) ≠ none) (other : Topology) :
    ∃ t, exec ((m.aliasEnv other (.path item)).run (m.lookups (depth + 1))) s =
      (.ok (some (chain length)), t) ∧
      m.meanings.Ready (depth + 1) t ∧ Extends s t ∧
      (s.get? .resolution site.holder = none →
        t.get? .effectiveType (chain i) = some (.done (chain length))) := by
  refine h.found_aliasEnv helements (hchain.chainEnds hi) hs hfree (fun t ht hsame => ?_) other
  obtain ⟨nested, rfl⟩ := Nat.exists_eq_succ_of_ne_zero (Nat.ne_zero_of_lt ht.room)
  refine hchain.found_of_reach hplain lawful_meanings
    (Theory.answers_lookups lawful_meanings nested) ht
    (.inl (hchain.owned i hi)) hi (fun j hj => ?_) ?_
  · rw [hsame]
    rcases hstate : s.get? .effectiveType (chain j) with _ | _ | type
    · exact .inl rfl
    · exact absurd hstate (hunmarked _)
    · rw [(hs.agrees.typed _ _ hstate).2.unique (hchain.chainEnds hj)]
      exact .inr rfl
  · simp only [hsame]
    exact hreach

/-- A cycle is reported if a walk cannot reach the end of the chain, and no effective type is
known. -/
theorem NamesSource.fails_on_chain (hi : i + maxChainLength ≤ length)
    (hresolution : s.get? .resolution site.holder = none)
    (hnone : ∀ node, s.get? .effectiveType node = none) (other : Topology) :
    FailsWith .circularType
      (exec ((m.aliasEnv other (.path item)).run (m.lookups (depth + 1))) s).1 := by
  refine h.fails_aliasEnv hs hresolution hfree
    (fun t ht hsame => ⟨m.circularAt (chain i), ?_, rfl⟩) other
  obtain ⟨nested, rfl⟩ := Nat.exists_eq_succ_of_ne_zero (Nat.ne_zero_of_lt ht.room)
  exact hchain.circular_of_unknown hplain lawful_meanings
    (Theory.answers_lookups lawful_meanings nested) ht
    (.inl (hchain.owned i (Nat.le_trans (Nat.le_add_right i _) hi))) hi fun j _ _ =>
      (hsame _).trans (hnone _)

end

/-- A definition that offers elements is the environment of the sources that name it. -/
theorem NamesSource.found_structured (h : m.NamesSource item type topology site)
    (helements : m.OffersElements type) (hs : m.meanings.Ready (depth + 1) s)
    (hfree : site.holder ∉ s.resolving)
    (hunmarked : ∀ node, s.get? .effectiveType node ≠ some .inProgress) (other : Topology) :
    ∃ t, exec ((m.aliasEnv other (.path item)).run (m.lookups (depth + 1))) s =
      (.ok (some type), t) := by
  have hstruct := helements.hasStructure
  have hchain : m.FiniteChain 0 fun _ => type :=
    ⟨fun _ _ => h.owned, fun i hi => absurd hi (Nat.not_lt_zero i),
      fun i hi => absurd hi (Nat.not_lt_zero i), .inl hstruct⟩
  obtain ⟨t, hex, _⟩ := h.found_on_chain hchain
    (fun _ _ hplain => by rw [hstruct] at hplain; cases hplain) hs hfree
    helements (Nat.le_refl 0) hunmarked (.inl (by decide)) other
  exact ⟨t, hex⟩

end SchemaRefs.Model
