import SchemaRefs.Proofs.FollowedChains
import SchemaRefs.Proofs.Inferences
import SchemaRefs.Proofs.ReferenceLists
import SchemaRefs.Proofs.Retention
import SchemaRefs.Proofs.SegmentPaths

/-!
# References to definitions

A reference that is known to denote a definition can be asked for in two ways: by inspecting its
path, or by `artifactRef`, which looks a single name up among the definitions and inspects the path
of a longer reference only. In the contexts of definitions the first segment is looked up among the
definitions as well (`namesDefinition_resolveSite`), so that both answers agree, as long as what the
session keeps for the reference was resolved in such a context:

* `definition_reference_agrees`: the two answers agree, in the session at hand and later on; a
  fallback takes the place of model errors, and of nothing else;
* `misread_segment_misleads_inspection`: an index below an object is read as a segment of a
  reference, and what is kept for the type below it is an element, where `artifactRef` answers with
  a definition.
-/

namespace SchemaRefs

/-! ## References that their own nodes hold -/

/-- A node whose own path is that of a reference is a name or has segments. -/
theorem Site.isRefLike_of_own {doc : Document} {topology : Topology} {node definition : NodeId}
    {site : Site} (ho : doc.owner? node = some definition)
    (h : Site.analyze doc topology (doc.pathOf node) = .ok site) (hk : site.kind = .reference)
    (hh : site.holder = node) : doc.isRefLike node = true := by
  obtain ⟨hd, hw⟩ := Document.owner?_eq_some_iff.mp ho
  obtain ⟨walk, hto, rfl, _⟩ := Walk.walkTo?_spec topology hd hw
  have hbehind : walk.Behind := Walk.advanceAll_keeps (fun _ _ _ hP hf => hP.advance hf)
    ((Walk.walkTo?_eq_some_iff Path.root).mp hto) Walk.behind_start
  rw [Site.analyze_pathOf ho hto] at h
  obtain ⟨context, hc, hseg, _⟩ := hbehind.own_of_finish h hk hh
  have hin : walk.inSegments = false := by
    cases hin : walk.inSegments with
    | false => rfl
    | true =>
      obtain ⟨⟨holder, outer⟩, hr⟩ := hbehind.segments (.inl hin)
      rw [Walk.finish_segments hc (.inl hin) hr] at h
      cases h
      exact absurd hh (Nat.ne_of_lt (hbehind.holder holder outer hr))
  unfold Walk.finish at h
  rw [hc, hseg, hin] at h
  dsimp only at h
  split at h
  · next heq => cases heq
  · split at h
    · next href => simp [Document.isRefLike, href]
    · split at h
      · next hname =>
        simp only [Bool.and_eq_true] at hname
        have hstring : (doc.string? walk.node).isSome = true := by
          cases hs : doc.string? walk.node with
          | none => simp [hs] at hname
          | some name => rfl
        simp [Document.isRefLike, Document.isString, hstring]
      · cases h

namespace Model

open Inquiry CacheM

variable {m : Model} {s t : Cache} {art node : NodeId} {r : Resolution} {site : Site}
  {topology : Topology}

/-! ## What a single name denotes -/

variable (m) in
/-- The resolution has the context of the site. In a context of definitions, the node that a single
name denotes is the definition of that name. -/
structure NamesDefinition (site : Site) (r : Resolution) : Prop where
  context : r.context = site.context
  single : site.kind = .reference → site.context.isGlobal = true →
    m.doc.flag site.holder "param" = false →
    (m.segmentsOf site.holder).length ≤ 1 → ∀ art, r.art = some art →
    ∃ name, m.firstName? site = some name ∧ m.doc.definition? name = some art

/-- In a context of definitions, the first link denotes the definition of its name. -/
theorem definition_of_headOf (site : Site) (topology : Topology) (name : String) (segments : Nat) :
    (m.headOf site topology name segments).Meets anything fun head =>
      site.context.isGlobal = true → m.doc.flag site.holder "param" = false →
        ∀ link scope env, head = .bound link scope env →
        m.doc.definition? name = some link.art := by
  by_cases hglobal : site.context.isGlobal = true ∧ m.doc.flag site.holder "param" = false
  · rw [headOf_of_isGlobal topology name hglobal.1 hglobal.2]
    unfold globalHead
    split
    · next definition hd =>
      intro _ _ link scope env heq
      cases heq
      exact hd
    · split
      · intro _ _ link scope env heq
        cases heq
      · trivial
  · exact (meets_answering _).weaken fun _ _ hg hp => absurd ⟨hg, hp⟩ hglobal

theorem namesDefinition_resolveReference (site : Site) (topology : Topology) :
    (m.resolveReference site topology).Meets anything (m.NamesDefinition site) := by
  refine meets_reference (fun _ => trivial) fun name rest hnames =>
    (definition_of_headOf site topology name _).weaken fun head hfound => ?_
  cases head with
  | unlinked scope => exact ⟨rfl, fun _ _ _ _ _ h => by cases h⟩
  | bound first scope env =>
    cases rest with
    | cons next rest =>
      refine Meets.bind (meets_answering _) fun links _ => ?_
      refine Meets.bind (meets_answering _) fun closed _ => ⟨rfl, fun _ _ _ hone => ?_⟩
      rw [← (names_of_mapM hnames).1] at hone
      simp at hone
    | nil =>
      refine (meets_resolutionFrom_single site name first scope env).weaken fun r hr => ⟨hr.1, ?_⟩
      intro _ hg hp _ art hart
      cases hr.2.symm.trans hart
      exact ⟨name, firstName?_of_names hnames, hfound hg hp first scope env rfl⟩

theorem namesDefinition_resolveSite {path : Path} (_ : m.siteAt? path = .ok (topology, site)) :
    (m.resolveSite site topology).Meets anything (m.NamesDefinition site) := by
  unfold resolveSite
  split
  · next hk =>
    exact Meets.bind (meets_answering _) fun env _ => ⟨rfl, fun hno => by rw [hk] at hno; cases hno⟩
  · next hk =>
    exact Meets.bind (meets_answering _) fun env _ => ⟨rfl, fun hno => by rw [hk] at hno; cases hno⟩
  · exact namesDefinition_resolveReference site topology

/-! ## Looking up a reference -/

theorem refPath?_of_long (h : 1 < (m.segmentsOf node).length) :
    ∃ refPath, m.doc.refPath? node = some refPath ∧ m.segmentsOf node = m.doc.itemsAt refPath := by
  unfold segmentsOf at h ⊢
  cases href : m.doc.refPath? node with
  | none =>
    rw [href] at h
    exact absurd h (Nat.lt_irrefl 1)
  | some refPath => exact ⟨refPath, rfl, rfl⟩

theorem string?_of_refPath? {refPath : NodeId} (h : m.doc.refPath? node = some refPath) :
    m.doc.string? node = none := by
  obtain ⟨hp, _⟩ := Option.filter_eq_some_iff.mp h
  have hno := Document.isString_eq_false_of_prop? hp
  exact Option.isNone_iff_eq_none.mp (by simpa [Document.isString] using hno)

theorem exec_longArtifact_ok
    (hex : exec (m.inspect (m.doc.pathOf node)) s = (.ok r, t)) (fallback : Option NodeId) :
    exec (m.longArtifact node fallback) s = (.ok r.art, t) := by
  rw [longArtifact, exec_bind_ok (exec_attempt _ s), hex]
  rfl

/-- A reference of several segments is inspected. -/
theorem exec_artifactRef_long (hlong : 1 < (m.segmentsOf node).length)
    (hex : exec (m.inspect (m.doc.pathOf node)) s = (.ok r, t)) (hart : r.art = some art) :
    exec (m.artifactRef (.node node) none) s = (.ok art, t) := by
  obtain ⟨refPath, href, hsegments⟩ := refPath?_of_long hlong
  have hlookup := exec_longArtifact_ok hex none
  rw [hart] at hlookup
  have htarget : exec (m.artifactTarget none (.node node)) s =
      (.ok (((m.segmentsOf node).head?.bind m.doc.segmentName?).getD "", some art), t) := by
    simp only [artifactTarget, string?_of_refPath? href, href]
    rw [← hsegments, if_pos hlong, exec_bind_ok hlookup]
    rfl
  rw [artifactRef, exec_bind_ok htarget]
  rfl

/-- A single name is looked up among the definitions. -/
theorem exec_artifactRef_single (hlike : m.doc.isRefLike node = true)
    (hone : (m.segmentsOf node).length ≤ 1) {name : String}
    (hname : (m.segmentsOf node).head?.bind m.doc.segmentName? = some name)
    (hart : m.doc.definition? name = some art) (s : Cache) :
    exec (m.artifactRef (.node node) none) s = (.ok art, s) := by
  have htarget : exec (m.artifactTarget none (.node node)) s = (.ok (name, some art), s) := by
    cases hstring : m.doc.string? node with
    | some text =>
      have href : m.doc.refPath? node = none := by
        refine Document.refPath?_of_prop? (Document.prop?_of_isString ?_ "ref")
        rw [Document.isString, hstring]
        rfl
      rw [segmentsOf, href] at hname
      have htext : text = name := by simpa [Document.segmentName?, hstring] using hname
      simp only [artifactTarget, hstring]
      rw [htext, hart]
      rfl
    | none =>
      obtain ⟨refPath, href⟩ : ∃ refPath, m.doc.refPath? node = some refPath := by
        refine Option.isSome_iff_exists.mp ?_
        simpa [Document.isRefLike, Document.isString, hstring] using hlike
      simp only [segmentsOf, href] at hname hone
      simp only [artifactTarget, hstring, href]
      rw [if_neg (Nat.not_lt.mpr hone), hname]
      simp only [Option.getD_some, hart]
      rfl
  rw [artifactRef, exec_bind_ok htarget]
  rfl

/-! ## Fallbacks -/

theorem exec_longArtifact_error {e : ResolveError}
    (hex : exec (m.inspect (m.doc.pathOf node)) s = (.error e, t)) (fallback : Option NodeId) :
    exec (m.longArtifact node fallback) s =
      if !e.isInternal && fallback.isSome then (.ok none, t) else (.error e, t) := by
  rw [longArtifact, exec_bind_ok (exec_attempt _ s), hex]
  dsimp only
  split <;> rfl

variable (m) in
/-- A name, or a node that is a name or has segments. -/
def IsReference : ArtifactRef → Prop
  | .name _ => True
  | .node id => m.doc.isRefLike id = true

/-- What a reference denotes is found or not found whatever the fallback, or its inspection fails
and a fallback swallows model errors. -/
theorem artifactTarget_cases {reference : ArtifactRef} (h : m.IsReference reference) (s : Cache) :
    (∃ name found t, ∀ fallback,
      exec (m.artifactTarget fallback reference) s = (.ok (name, found), t)) ∨
    ∃ name e t, exec (m.artifactTarget none reference) s = (.error e, t) ∧
      ∀ fallback, exec (m.artifactTarget (some fallback) reference) s =
        if e.isInternal then (.error e, t) else (.ok (name, none), t) := by
  cases reference with
  | name name => exact .inl ⟨name, m.doc.definition? name, s, fun _ => rfl⟩
  | node node =>
    cases hstring : m.doc.string? node with
    | some name =>
      refine .inl ⟨name, m.doc.definition? name, s, fun fallback => ?_⟩
      simp only [artifactTarget, hstring]
      rfl
    | none =>
      obtain ⟨refPath, href⟩ : ∃ refPath, m.doc.refPath? node = some refPath := by
        refine Option.isSome_iff_exists.mp ?_
        simpa [IsReference, Document.isRefLike, Document.isString, hstring] using h
      simp only [artifactTarget, hstring, href]
      generalize ((m.doc.itemsAt refPath).head?.bind m.doc.segmentName?).getD "" = name
      by_cases hlong : 1 < (m.doc.itemsAt refPath).length
      · simp only [if_pos hlong]
        rcases hex : exec (m.inspect (m.doc.pathOf node)) s with ⟨e | r, t⟩
        · have hthrown : exec (m.longArtifact node none) s = (.error e, t) := by
            rw [exec_longArtifact_error hex, if_neg (by simp)]
          refine .inr ⟨name, e, t, exec_bind_error hthrown _, fun fallback => ?_⟩
          have hlookup := exec_longArtifact_error hex (some fallback)
          cases he : e.isInternal with
          | true =>
            rw [he, if_neg (by simp)] at hlookup
            exact exec_bind_error hlookup _
          | false =>
            rw [he, if_pos (by simp)] at hlookup
            rw [exec_bind_ok hlookup]
            rfl
        · refine .inl ⟨name, r.art, t, fun fallback => ?_⟩
          rw [exec_bind_ok (exec_longArtifact_ok hex fallback)]
          rfl
      · simp only [if_neg hlong]
        exact .inl ⟨name, m.doc.definition? name, s, fun _ => rfl⟩

/-- The outcome when a fallback takes the place of model errors. -/
def recovered (fallback : NodeId) (outcome : Except ResolveError NodeId) :
    Except ResolveError NodeId :=
  outcome.tryCatch fun e => if e.isInternal then .error e else .ok fallback

/-- A fallback takes the place of model errors, and of nothing else. -/
theorem exec_artifactRef_fallback {reference : ArtifactRef} (h : m.IsReference reference)
    (fallback : NodeId) (s : Cache) :
    exec (m.artifactRef reference (some fallback)) s =
      (recovered fallback (exec (m.artifactRef reference none) s).1,
        (exec (m.artifactRef reference none) s).2) := by
  rcases artifactTarget_cases h s with ⟨name, found, t, hex⟩ | ⟨name, e, t, hnone, hsome⟩
  · rw [artifactRef, artifactRef, exec_bind_ok (hex none), exec_bind_ok (hex (some fallback))]
    cases found <;> rfl
  · have hex := hsome fallback
    rw [artifactRef, artifactRef, exec_bind_error hnone]
    cases e with
    | model e =>
      rw [exec_bind_ok hex]
      rfl
    | assertion cause =>
      rw [exec_bind_error hex]
      rfl

/-! ## Both ways to ask -/

/-- In sessions that read paths as those of nodes, the resolution of a reference has the context of
its path. -/
theorem context_of_faithful (hs : m.ReachableBy m.IsFaithful s)
    (hsite : m.siteAt? (m.doc.pathOf node) = .ok (topology, site))
    (hr : (exec (m.inspect (m.doc.pathOf node)) s).1 = .ok r) : r.context = site.context := by
  have hgoverns : (m.rules m.IsCanonical).Governs m.IsCanonical :=
    governs_rules pathClosed_isCanonical
  obtain ⟨_, _, hsite', path', topology', site', hpath', hkept, hholder, hres⟩ :=
    hgoverns.resolves (reachableBy_canonical hs) ⟨node, rfl⟩ hr
  rw [hsite] at hsite'
  cases hsite'
  have hsame := siteAt?_eq_of_holder ⟨node, rfl⟩ hpath' hsite hkept hholder.symm
  rw [hsite, hkept] at hsame
  cases hsame
  exact hres.context

theorem Later.reachable {definition : NodeId} (hs : m.Reachable s) (h : m.Later definition s t) :
    m.Reachable t := by
  induction h with
  | now => exact hs
  | after request _ _ ih => exact .after request (asks_true request) ih

/-- A path that was resolved is found again later on. -/
theorem later_of_inspect {path : Path} {u : Cache}
    (hs : m.Reachable s) (hsite : m.siteAt? path = .ok (topology, site))
    (hex : exec (m.inspect path) s = (.ok r, t)) (hu : m.Later site.main t u) :
    m.Reachable u ∧ exec (m.inspect path) u = (.ok r, u) := by
  have ht : m.Reachable t := by
    have hafter : m.Reachable (exec (m.answer (.inspect path)) s).2 := .after _ trivial hs
    rwa [show exec (m.answer (.inspect path)) s = _ from hex] at hafter
  obtain ⟨_, _, hin⟩ := inspected_of_inspect (settled_of_reachable hs) hex
  have hfound := hin.found
  rw [hsite] at hfound
  cases hfound
  obtain ⟨_, hd, _⟩ := siteAt?_eq_ok hsite
  have hmain := Document.owner?_of_isDefinition (Document.isDefinition_of_pathDefinition hd)
  have hkept := (hu.retains (settled_of_reachable ht)).2
  exact ⟨hu.reachable ht, Inspected.exec_inspect ⟨hsite, hkept .topology _ _ hmain hin.prepared,
    hkept .resolution _ _ (owner?_holder hsite) hin.resolved⟩⟩

/-- A resolution that was found in a context of definitions is what `artifactRef` finds. -/
theorem artifactRef_of_inspect (hs : m.Reachable s)
    (hsite : m.siteAt? (m.doc.pathOf node) = .ok (topology, site)) (hkind : site.kind = .reference)
    (hholder : site.holder = node) (hparam : m.doc.flag node "param" = false)
    (hex : exec (m.inspect (m.doc.pathOf node)) s = (.ok r, t)) (hart : r.art = some art)
    (hcontext : r.context.isGlobal = true ∨ 1 < (m.segmentsOf node).length) :
    (exec (m.artifactRef (.node node) none) s).1 = .ok art := by
  by_cases hlong : 1 < (m.segmentsOf node).length
  · rw [exec_artifactRef_long hlong hex hart]
  · have hglobal := hcontext.resolve_right hlong
    obtain ⟨_, _, _, _, hanalyze, _⟩ := siteAt?_eq_ok hsite
    have howner := owner?_holder hsite
    rw [hholder] at howner
    have hlike := Site.isRefLike_of_own howner hanalyze hkind hholder
    obtain ⟨_, _, hsite', _, path', topology', site', hkept, hholder', hnames⟩ :=
      (governs_sites namesDefinition_resolveSite).resolves hs trivial (by rw [hex])
    rw [hsite] at hsite'
    cases hsite'
    have hsame : site'.holder = node := hholder'.trans hholder
    have hkind' : site'.kind = .reference := (kind_eq_of_holder hkept hsite hholder').trans hkind
    obtain ⟨name, hname, hdefinition⟩ := hnames.single hkind' (hnames.context ▸ hglobal)
      (by rw [hsame]; exact hparam) (by rw [hsame]; exact Nat.le_of_not_lt hlong) art hart
    rw [firstName?, hsame] at hname
    rw [exec_artifactRef_single hlike (Nat.le_of_not_lt hlong) hname hdefinition]

/-- A reference in a context of definitions that asks for no parameter denotes what `artifactRef`
finds, in the session at hand and later on. The session reads paths as those of nodes, or what it
keeps for the reference was found in a context of definitions, or the reference has several
segments; in a session that reads paths as those of nodes, the context is always that of the
reference. For references of every kind, a fallback takes the place of model errors, and of nothing
else. -/
theorem definition_reference_agrees {m : Model} :
    (∀ (s t : Cache) (node : NodeId) (topology : Topology) (site : Site) (r : Resolution)
        (art : NodeId),
      m.Reachable s → m.siteAt? (m.doc.pathOf node) = .ok (topology, site) →
      site.kind = .reference → site.holder = node → site.context.isGlobal = true →
      m.doc.flag node "param" = false →
      exec (m.inspect (m.doc.pathOf node)) s = (.ok r, t) → r.art = some art →
      m.ReachableBy m.IsFaithful s ∨ r.context.isGlobal = true ∨ 1 < (m.segmentsOf node).length →
      (exec (m.artifactRef (.node node) none) s).1 = .ok art ∧
        ∀ u, m.Later site.main t u → (exec (m.artifactRef (.node node) none) u).1 = .ok art) ∧
    ∀ (s t : Cache) (reference : ArtifactRef) (fallback : NodeId), m.IsReference reference →
      (∀ art, exec (m.artifactRef reference none) s = (.ok art, t) →
        exec (m.artifactRef reference (some fallback)) s = (.ok art, t)) ∧
      (∀ e, exec (m.artifactRef reference none) s = (.error (.model e), t) →
        exec (m.artifactRef reference (some fallback)) s = (.ok fallback, t)) ∧
      ∀ cause, exec (m.artifactRef reference none) s = (.error (.assertion cause), t) →
        exec (m.artifactRef reference (some fallback)) s = (.error (.assertion cause), t) := by
  refine ⟨fun s t node topology site r art hs hsite hkind hholder hglobal hparam hex hart hread =>
    ?_,
    fun s t reference fallback href => ⟨fun art h => ?_, fun e h => ?_, fun cause h => ?_⟩⟩
  · have hcontext : r.context.isGlobal = true ∨ 1 < (m.segmentsOf node).length := by
      rcases hread with hfaithful | hread
      · refine .inl ?_
        rw [context_of_faithful hfaithful hsite (by rw [hex])]
        exact hglobal
      · exact hread
    refine ⟨artifactRef_of_inspect hs hsite hkind hholder hparam hex hart hcontext, fun u hu => ?_⟩
    obtain ⟨hreach, hrepeats⟩ := later_of_inspect hs hsite hex hu
    exact artifactRef_of_inspect hreach hsite hkind hholder hparam hrepeats hart hcontext
  · rw [exec_artifactRef_fallback href, h]
    rfl
  · rw [exec_artifactRef_fallback href, h]
    rfl
  · rw [exec_artifactRef_fallback href, h]
    rfl

/-! ### A type that is inspected by another path than its own -/

/-- The type of the element `0`. -/
def labelSite : Site :=
  { kind := .reference, holder := 5, context := .type, main := 2, query := none, member := some 4,
    memberParent := some 2, base := none }

def labelResolution : Resolution :=
  { links := [⟨8, none⟩], art := some 8, parent := some 4, scope := .global, env := none,
    context := .type }

/-- The type is found among the definitions, also after one of them was dropped. A name without
definition has the fallback. -/
theorem labelSession_names_definitions :
    labelModel.ReachableBy labelModel.IsFaithful labelSession ∧
    labelModel.siteAt? (labelModel.doc.pathOf 5) = .ok (⟨2, [], []⟩, labelSite) ∧
    (∃ t, exec (labelModel.inspect (labelModel.doc.pathOf 5)) labelSession =
      (.ok labelResolution, t) ∧
      (exec (labelModel.artifactRef (.node 5) none) (exec (labelModel.answer (.drop 8)) t).2).1 =
        .ok 8) ∧
    (exec (labelModel.artifactRef (.node 5) none) labelSession).1 = .ok 8 ∧
    exec (labelModel.artifactRef (.name "Z") (some 2)) labelSession = (.ok 2, labelSession) := by
  have hsite : labelModel.siteAt? (labelModel.doc.pathOf 5) = .ok (⟨2, [], []⟩, labelSite) :=
    eq_ok_of_toOption (by decide +kernel)
  have hr : (exec (labelModel.inspect (labelModel.doc.pathOf 5)) labelSession).1 =
      .ok labelResolution :=
    eq_ok_of_toOption (by decide +kernel)
  have hex : exec (labelModel.inspect (labelModel.doc.pathOf 5)) labelSession =
      (.ok labelResolution, (exec (labelModel.inspect (labelModel.doc.pathOf 5)) labelSession).2) :=
    Prod.ext hr rfl
  have hmissing : exec (labelModel.artifactRef (.name "Z") none) labelSession =
      (.error (.model (.noDefinition "Z")), labelSession) := rfl
  obtain ⟨hnow, hlater⟩ := definition_reference_agrees.1 labelSession _ 5 _ _ _ 8
    (.after _ trivial .new) hsite rfl
    rfl rfl (by decide +kernel) hex rfl (.inl reachableBy_labelSession)
  exact ⟨reachableBy_labelSession, hsite,
    ⟨_, hex, hlater _ (.after (.drop 8) (by decide) .now)⟩, hnow,
    (definition_reference_agrees.2 labelSession labelSession (.name "Z") 2 trivial).2.1 _ hmissing⟩

/-! ### An index that is read as a segment -/

/-- What the session keeps for the type of the member `0`: the element `T`. -/
def numeralResolution : Resolution :=
  { links := [⟨6, none⟩], art := some 6, parent := some 8, scope := .parent, env := none,
    context := .calculated }

/-- The type of the member `0` is a reference in a context of definitions, and names a definition.
The session has read its path as one below a segment of a value, and answers with an element when
the type is inspected. -/
theorem misread_segment_misleads_inspection :
    numeralModel.Reachable numeralSession ∧
    (∃ topology site, numeralModel.siteAt? (numeralModel.doc.pathOf 12) = .ok (topology, site) ∧
      site.kind = .reference ∧ site.holder = 12 ∧ site.context = .type) ∧
    numeralModel.doc.flag 12 "param" = false ∧
    (exec (numeralModel.inspect (numeralModel.doc.pathOf 12)) numeralSession).1 =
      .ok numeralResolution ∧
    numeralResolution.art = some 6 ∧
    (exec (numeralModel.artifactRef (.node 12) none) numeralSession).1 = .ok 2 := by
  have hsite : numeralModel.siteAt? (numeralModel.doc.pathOf 12) = .ok (⟨4, [], []⟩,
      { kind := .reference, holder := 12, context := .type, main := 4, query := none,
        member := some 8,
        memberParent := some 4, base := none }) := eq_ok_of_toOption (by decide +kernel)
  exact ⟨.after _ trivial .new, ⟨_, _, hsite, rfl, rfl, rfl⟩, by decide +kernel,
    eq_ok_of_toOption (by decide +kernel), rfl, eq_ok_of_toOption (by decide +kernel)⟩

end Model

end SchemaRefs
