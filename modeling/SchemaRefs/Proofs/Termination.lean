import SchemaRefs.Proofs.Nesting

/-!
# Nested calls end

A request makes calls, which make further ones: `Calls` says which, with the cache at that time, and
`Nest` is a nest of calls of which each waits for the next. The holders of the references that are
being resolved in a nest are all different, no node is on two of its chains, and the search for an
origin goes from a node to one around it (`Disciplined`). A lookup calls others only with fewer free
holders or fewer nodes without mark, so every nest is finite (`nested_calls_end`). The bound on the
depth of nesting is therefore never felt: each call is answered by the recursion without it
(`unfolded`).
-/

namespace SchemaRefs

open CacheM

/-- A question as a request. -/
def Question.toRequest : Question → Request
  | .inspect path => .inspect path
  | .effectiveType node => .effectiveType node

namespace Request

/-- The request is a question of inquiries. -/
def isLookup : Request → Bool
  | .inspect _ | .effectiveType _ => true
  | _ => false

/-- The node whose origin is searched for. -/
def searched : Request → List NodeId
  | .origin node => [node]
  | _ => []

end Request

theorem Question.isLookup_toRequest (question : Question) : question.toRequest.isLookup = true := by
  cases question <;> rfl

theorem Question.searched_toRequest (question : Question) : question.toRequest.searched = [] := by
  cases question <;> rfl

/-- Where the origin of a node is looked for, one after the other. -/
inductive OriginPart where
  | marker
  | type
  | column
  | parent

namespace Model

variable (m : Model) {node : NodeId}

/-! ## Calls -/

/-- The search for the origin of a node comes to a part, since the parts before it have none. -/
inductive SearchReaches (node : NodeId) (s : Cache) : OriginPart → Cache → Prop where
  | marker {owner : NodeId} {topology : Topology} {t : Cache} :
      m.doc.owner? node = some owner → exec (m.prepare owner) s = (.ok topology, t) →
      t.get? .origin node = none → SearchReaches node s .marker (t.count countOrigin)
  | type {t u : Cache} : SearchReaches node s .marker t →
      exec ((partTarget m.originTarget (m.doc.originMarker? node)).run m.ask) t = (.ok none, u) →
      SearchReaches node s .type u
  | column {t u : Cache} : SearchReaches node s .type t →
      exec ((partTarget m.typeTarget (m.doc.typeRef? node)).run m.ask) t = (.ok none, u) →
      SearchReaches node s .column u
  | parent {t u : Cache} : SearchReaches node s .column t →
      exec (m.columnOrigin node) t = (.ok none, u) → SearchReaches node s .parent u

/-- The calls that a call makes, with the cache at that time and what the caller has under way. -/
inductive Calls : Request → Cache → Frame → Request → Cache → Prop where
  | inspect {path : Path} {s t : Cache} {frame : Frame} {inner : Question} :
      m.Poses m.ask (.inspect path) s frame inner t →
      Calls (.inspect path) s frame inner.toRequest t
  | effectiveType {node : NodeId} {s t : Cache} {frame : Frame} {inner : Question} :
      m.Poses m.ask (.effectiveType node) s frame inner t →
      Calls (.effectiveType node) s frame inner.toRequest t
  | navigationEnv {node : NodeId} {preferStatic : Bool} {s t : Cache} {inner : Question} :
      (m.envOf node preferStatic).Asks m.ask s inner t →
      Calls (.navigationEnv node preferStatic) s .other inner.toRequest t
  | artifactRef {node refPath : NodeId} {fallback : Option NodeId} {s : Cache} :
      m.doc.string? node = none → m.doc.refPath? node = some refPath →
      1 < (m.doc.itemsAt refPath).length →
      Calls (.artifactRef (.node node) fallback) s .other (.inspect (m.doc.pathOf node)) s
  | originMarker {node : NodeId} {s t u : Cache} {inner : Question} :
      m.SearchReaches node s .marker t →
      (partTarget m.originTarget (m.doc.originMarker? node)).Asks m.ask t inner u →
      Calls (.origin node) s (.origin node) inner.toRequest u
  | originType {node : NodeId} {s t u : Cache} {inner : Question} :
      m.SearchReaches node s .type t →
      (partTarget m.typeTarget (m.doc.typeRef? node)).Asks m.ask t inner u →
      Calls (.origin node) s (.origin node) inner.toRequest u
  | originColumn {node column : NodeId} {s t u : Cache} :
      m.SearchReaches node s .column t → exec (m.elementColumn node) t = (.ok (some column), u) →
      (m.doc.refPath? column).isSome = true →
      Calls (.origin node) s (.origin node) (.inspect (m.doc.pathOf column)) u
  | originParent {node parent : NodeId} {name : String} {s t : Cache} :
      m.SearchReaches node s .parent t → t.get? .parent node = some parent →
      (m.doc.step? node).bind Step.key? = some name →
      Calls (.origin node) s (.origin node) (.origin parent) t
  | originMember {node parent origin : NodeId} {name : String} {s t u : Cache} :
      m.SearchReaches node s .parent t → t.get? .parent node = some parent →
      (m.doc.step? node).bind Step.key? = some name →
      exec (m.origin parent) t = (.ok (some origin), u) →
      Calls (.origin node) s (.origin node) (.navigationEnv origin false) u

/-- A nest of calls, from the one for a request in a cache to the innermost one, with what those
around it have under way, the innermost first. -/
inductive Nest (request : Request) (s : Cache) : List Frame → Request → Cache → Prop where
  | outermost : Nest request s [] request s
  | inner {frames : List Frame} {frame : Frame} {caller called : Request} {t u : Cache} :
      Nest request s frames caller t → m.Calls caller t frame called u →
      Nest request s (frame :: frames) called u

/-- The holders that are being resolved are those of the nest, each once; the nodes that are marked
are those of its chains, each once; and where origins are searched for, each node lies properly
around the one before. -/
structure Disciplined (frames : List Frame) (request : Request) (s : Cache) : Prop where
  resolving : s.resolving = frames.flatMap Frame.holders
  holders_nodup : (frames.flatMap Frame.holders).Nodup
  marks : ∀ node, s.get? .effectiveType node = some .inProgress ↔ node ∈ frames.flatMap Frame.nodes
  nodes_nodup : (frames.flatMap Frame.nodes).Nodup
  ancestors : (request.searched ++ frames.flatMap Frame.searched).Pairwise fun inner outer =>
    m.doc.Within inner outer ∧ inner ≠ outer

/-- The search for the origin of a node, where `originOf` finds those of the nodes around it. -/
def searchOrigin (originOf : NodeId → CacheM (Option NodeId)) (node : NodeId) :
    CacheM (Option NodeId) := do
  let owner ← m.ownerOf node
  let _ ← m.prepare owner
  getOrCompute .origin owner node do
    count countOrigin
    m.computeOrigin originOf node

/-- The answer to a request, in which the calls that it makes are requests again. -/
def unfolded : (request : Request) → CacheM request.Result
  | .inspect path => m.inspectWith m.ask path
  | .effectiveType node => m.effectiveTypeWith m.ask node
  | .origin node => m.searchOrigin m.origin node
  | request => m.answer request

variable {m} {s t u : Cache} {frames : List Frame} {frame : Frame} {request caller called : Request}
  {question inner : Question}

/-! ## Lookups -/

theorem exists_question (h : request.isLookup = true) :
    ∃ question : Question, request = question.toRequest := by
  cases request with
  | inspect path => exact ⟨.inspect path, rfl⟩
  | effectiveType node => exact ⟨.effectiveType node, rfl⟩
  | _ => cases h

theorem poses_of_calls (h : m.Calls question.toRequest s frame called t) :
    ∃ inner, called = inner.toRequest ∧ m.Poses m.ask question s frame inner t := by
  cases question with
  | inspect path =>
    cases h with
    | inspect hposes => exact ⟨_, rfl, hposes⟩
  | effectiveType node =>
    cases h with
    | effectiveType hposes => exact ⟨_, rfl, hposes⟩

theorem isOwned_of_markChain (h : exec (m.markChain node) s = (.ok (), t)) :
    m.IsOwned node := by
  rw [IsOwned]
  cases ho : m.doc.owner? node with
  | some owner => rfl
  | none =>
    have hfails : exec (m.ownerOf node) s =
        (.error (.assertion (.outsideDefinitions node)), s) := by
      rw [exec_ownerOf, ho]
    rw [markChain, exec_bind_error hfails] at h
    cases h

theorem WalksTo.isOwned {k : Lookups} {start current : NodeId} {steps : Nat} {marked : List NodeId}
    (h : m.WalksTo k start s steps current marked t) : current = start ∨ m.IsOwned start := by
  induction h with
  | start => exact .inl rfl
  | link _ _ _ hm _ ih =>
    rcases ih with rfl | hstart
    · exact .inr (isOwned_of_markChain hm)
    · exact .inr hstart

/-- A question that poses others is one that the rules speak of. -/
theorem covers_of_poses (h : m.Poses m.ask question s frame inner t) :
    (m.rules fun _ => True).Covers question := by
  cases h with
  | resolving => trivial
  | walking _ hwalk _ _ hm =>
    rcases hwalk.isOwned with rfl | howned
    · exact .inl (isOwned_of_markChain hm)
    · exact .inl howned

theorem deeper_of_calls (hs : (m.rules fun _ => True).Agrees s)
    (h : m.Calls question.toRequest s frame called t) :
    called.isLookup = true ∧ (m.rules fun _ => True).Agrees t ∧ m.Deeper frame s t := by
  obtain ⟨inner, rfl, hposes⟩ := poses_of_calls h
  obtain ⟨_, ht, hdeeper⟩ := Theory.deeper_of_poses governs_all.refines.lawful
    (Theory.answers_ask governs_all.refines.lawful) (covers_of_poses hposes)
    ⟨hs, Nat.lt_succ_of_lt (room_le s)⟩ hposes
  exact ⟨inner.isLookup_toRequest, ht, hdeeper⟩

/-! ## Searching for origins -/

theorem settled_of_asks {α : Type} {x : Inquiry α} {post : α → Prop}
    (hx : x.Meets (m.rules fun _ => True).contract post) (hs : (m.rules fun _ => True).Settled s)
    (h : x.Asks m.ask s question t) : (m.rules fun _ => True).Settled t := by
  obtain ⟨_, ht, hext⟩ := (Theory.answers_ask governs_all.refines.lawful).asks hx
    ⟨hs.agrees, room_le s⟩ h
  exact hs.extends ht.agrees hext

theorem settled_of_exec {α : Type} {x : CacheM α} {R : Cache → Cache → Prop}
    {E : ResolveError → Prop} {Q : α → Prop} {outcome : Except ResolveError α}
    (hx : Keeps (m.rules fun _ => True).Settled R E Q x) (hs : (m.rules fun _ => True).Settled s)
    (hex : exec x s = (outcome, t)) : (m.rules fun _ => True).Settled t := by
  have ht := (hx s hs).1
  rwa [hex] at ht

theorem SearchReaches.settled {part : OriginPart} (h : m.SearchReaches node s part t)
    (hs : (m.rules fun _ => True).Settled s) : (m.rules fun _ => True).Settled t := by
  induction h with
  | marker _ hprep _ =>
    have ht := settled_of_exec (keeps_prepare _) hs hprep
    exact ht.extends (ht.agrees.count _) (.count _ _)
  | type _ hex ih => exact settled_of_exec (keeps_run governs_all (meets_originPart node)) ih hex
  | column _ hex ih =>
    exact settled_of_exec (keeps_run governs_all (meets_typePart governs_all.closed node)) ih hex
  | parent _ hex ih => exact settled_of_exec (keeps_columnOrigin governs_all node) ih hex

/-- The questions about an environment are asked in settled caches. -/
theorem settled_of_asks_envOf {preferStatic : Bool} (hs : (m.rules fun _ => True).Settled s)
    (h : (m.envOf node preferStatic).Asks m.ask s question t) :
    (m.rules fun _ => True).Settled t := by
  cases ho : m.doc.owner? node with
  | some owner =>
    have howned : m.IsOwned node := by rw [IsOwned, ho]; rfl
    exact settled_of_asks (meets_envOf (.inl howned) preferStatic) hs h
  | none =>
    -- the effective type of the node is the first question, and fails
    cases h with
    | effectiveType => exact hs
    | afterEffectiveType hex =>
      have hfails := exec_effectiveType_outside hs.agrees.orderly ho
      rw [effectiveType, hex] at hfails
      cases hfails

/-- Other requests make their calls in settled caches. -/
theorem settled_of_calls (hs : (m.rules fun _ => True).Settled s)
    (hcaller : caller.isLookup = false) (h : m.Calls caller s frame called t) :
    (m.rules fun _ => True).Settled t := by
  cases h with
  | inspect | effectiveType => cases hcaller
  | navigationEnv hasks => exact settled_of_asks_envOf hs hasks
  | artifactRef => exact hs
  | originMarker hreach hasks =>
    exact settled_of_asks (meets_originPart _) (hreach.settled hs) hasks
  | originType hreach hasks =>
    exact settled_of_asks (meets_typePart governs_all.closed _) (hreach.settled hs) hasks
  | originColumn hreach hex _ =>
    exact settled_of_exec (keeps_preparedFact .column _) (hreach.settled hs) hex
  | originParent hreach => exact hreach.settled hs
  | originMember hreach _ _ hex =>
    exact settled_of_exec (keeps_originWithin governs_all (Nat.lt_succ_self _))
      (hreach.settled hs) hex

/-- The search for an origin goes on from a node to one properly around it. -/
theorem within_of_calls (hs : (m.rules fun _ => True).Settled s) {parent : NodeId}
    (h : m.Calls (.origin node) s frame (.origin parent) t) :
    m.doc.Within parent node ∧ parent < node := by
  generalize hcalled : Request.origin parent = called at h
  cases h with
  | originParent hreach hparent _ =>
    cases hcalled
    exact (hreach.settled hs).agrees.orderly.parent_within hparent
  | originMarker | originType =>
    next inner _ _ => cases inner <;> cases hcalled
  | originColumn | originMember => cases hcalled

/-! ## Nests -/

variable (m) in
/-- A disciplined nest in a cache that agrees with the rules. Only lookups have something under
way. -/
structure Stacked (frames : List Frame) (request : Request) (s : Cache) : Prop where
  disciplined : m.Disciplined frames request s
  agrees : (m.rules fun _ => True).Agrees s
  quiet : request.isLookup = false →
    frames.flatMap Frame.holders = [] ∧ frames.flatMap Frame.nodes = []

theorem Stacked.settled (h : m.Stacked frames request s) (hquiet : request.isLookup = false) :
    (m.rules fun _ => True).Settled s := by
  obtain ⟨hholders, hnodes⟩ := h.quiet hquiet
  refine ⟨h.agrees, fun node hmark => ?_, h.disciplined.resolving.trans hholders⟩
  have hmem := (h.disciplined.marks node).mp hmark
  rw [hnodes] at hmem
  cases hmem

theorem stacked_of_settled (h : (m.rules fun _ => True).Settled s) : m.Stacked [] request s := by
  refine ⟨⟨h.idle, List.nodup_nil, fun node => ?_, List.nodup_nil, ?_⟩, h.agrees,
    fun _ => ⟨rfl, rfl⟩⟩
  · simp [h.unmarked node]
  · cases request <;> simp [Request.searched]

/-- A lookup calls another one. -/
theorem Stacked.lookup (h : m.Stacked frames question.toRequest s)
    (hcalls : m.Calls question.toRequest s frame called t) :
    m.Stacked (frame :: frames) called t := by
  obtain ⟨hlookup, ht, hdeeper⟩ := deeper_of_calls h.agrees hcalls
  obtain ⟨inner, rfl, _⟩ := poses_of_calls hcalls
  obtain ⟨hresolving, hholders, hmarks, hnodes, hancestors⟩ := h.disciplined
  refine ⟨⟨?_, ?_, fun node => ?_, ?_, ?_⟩, ht, fun hquiet => ?_⟩
  · rw [hdeeper.resolving, hresolving, List.flatMap_cons]
  · rw [List.flatMap_cons, List.nodup_append]
    refine ⟨hdeeper.nodup.1, hholders, fun holder hnew other hold heq => ?_⟩
    rw [← hresolving, ← heq] at hold
    exact (hdeeper.freeHolders holder hnew).1 hold
  · rw [hdeeper.marks, hmarks, List.flatMap_cons, List.mem_append, or_comm]
  · rw [List.flatMap_cons, List.nodup_append]
    refine ⟨hdeeper.nodup.2, hnodes, fun node hnew other hold heq => ?_⟩
    rw [← heq, ← hmarks] at hold
    exact (hdeeper.freeNodes node hnew).1 hold
  · rw [Question.searched_toRequest, List.nil_append] at hancestors ⊢
    rw [List.flatMap_cons, hdeeper.unsearched]
    exact hancestors
  · rw [hlookup] at hquiet
    cases hquiet

/-- A request that is no lookup has nothing under way but the search for an origin. -/
theorem frame_of_calls (hcaller : caller.isLookup = false) (h : m.Calls caller s frame called t) :
    frame.holders = [] ∧ frame.nodes = [] ∧ frame.searched = caller.searched := by
  cases h with
  | inspect | effectiveType => cases hcaller
  | _ => exact ⟨rfl, rfl, rfl⟩

/-- Another request makes a call. -/
theorem Stacked.other (h : m.Stacked frames caller s) (hcaller : caller.isLookup = false)
    (hcalls : m.Calls caller s frame called t) : m.Stacked (frame :: frames) called t := by
  have hs := h.settled hcaller
  have ht := settled_of_calls hs hcaller hcalls
  obtain ⟨hholders, hnodes⟩ := h.quiet hcaller
  obtain ⟨hframe, hframe', hsearched⟩ := frame_of_calls hcaller hcalls
  have hholders' : (frame :: frames).flatMap Frame.holders = [] := by
    rw [List.flatMap_cons, hframe, hholders]
    rfl
  have hnodes' : (frame :: frames).flatMap Frame.nodes = [] := by
    rw [List.flatMap_cons, hframe', hnodes]
    rfl
  refine ⟨⟨ht.idle.trans hholders'.symm, by rw [hholders']; exact List.nodup_nil, fun node => ?_,
    by rw [hnodes']; exact List.nodup_nil, ?_⟩, ht.agrees, fun _ => ⟨hholders', hnodes'⟩⟩
  · rw [hnodes']
    simp [ht.unmarked node]
  · have houter := h.disciplined.ancestors
    rw [List.flatMap_cons, hsearched]
    cases called with
    | origin parent =>
      -- only the search for an origin searches for another one
      have hcaller' : ∃ node, caller = .origin node := by
        generalize hcalled : Request.origin parent = called at hcalls
        cases hcalls with
        | inspect | effectiveType | navigationEnv => next inner _ => cases inner <;> cases hcalled
        | artifactRef => cases hcalled
        | _ => exact ⟨_, rfl⟩
      obtain ⟨node, rfl⟩ := hcaller'
      obtain ⟨hwithin, hlt⟩ := within_of_calls hs hcalls
      refine List.pairwise_cons.mpr ⟨fun outer hmem => ?_, houter⟩
      rcases List.mem_cons.mp hmem with rfl | hmem
      · exact ⟨hwithin, Nat.ne_of_lt hlt⟩
      · obtain ⟨hnode, _⟩ := List.rel_of_pairwise_cons houter hmem
        exact ⟨hwithin.trans hnode, Nat.ne_of_lt (Nat.lt_of_lt_of_le hlt hnode.le)⟩
    | _ => exact houter

theorem Nest.stacked (h : m.Nest request s frames called t)
    (hs : (m.rules fun _ => True).Settled s) : m.Stacked frames called t := by
  induction h with
  | outermost => exact stacked_of_settled hs
  | @inner frames frame caller called t u _ hcalls ih =>
    cases hlookup : caller.isLookup with
    | false => exact ih.other hlookup hcalls
    | true =>
      obtain ⟨question, rfl⟩ := exists_question hlookup
      exact ih.lookup hcalls

/-! ## Nests are finite -/

variable (m) in
/-- One call is made by the other. -/
def CalledBy (inner outer : Request × Cache) : Prop :=
  ∃ frame, m.Calls outer.1 outer.2 frame inner.1 inner.2

/-- Lookups end, since there is less room for those that they call. -/
theorem acc_lookup (question : Question) (hs : (m.rules fun _ => True).Agrees s) :
    Acc m.CalledBy (question.toRequest, s) := by
  induction hroom : m.room s using Nat.strongRecOn generalizing question s with
  | ind room ih =>
    refine Acc.intro _ fun inner hinner => ?_
    obtain ⟨called, t⟩ := inner
    obtain ⟨frame, hcalls⟩ := hinner
    obtain ⟨_, ht, hdeeper⟩ := deeper_of_calls hs hcalls
    obtain ⟨inner, rfl, _⟩ := poses_of_calls hcalls
    exact ih (m.room t) (hroom ▸ hdeeper.shrinks.room_lt) inner ht rfl

theorem acc_navigationEnv (node : NodeId) (preferStatic : Bool)
    (hs : (m.rules fun _ => True).Settled s) :
    Acc m.CalledBy (.navigationEnv node preferStatic, s) := by
  refine Acc.intro _ fun inner hinner => ?_
  obtain ⟨called, t⟩ := inner
  obtain ⟨frame, hcalls⟩ := hinner
  have ht := settled_of_calls hs rfl hcalls
  cases hcalls
  exact acc_lookup _ ht.agrees

/-- The search for an origin ends, since it goes up the document. -/
theorem acc_origin (node : NodeId) (hs : (m.rules fun _ => True).Settled s) :
    Acc m.CalledBy (.origin node, s) := by
  induction node using Nat.strongRecOn generalizing s with
  | ind node ih =>
    refine Acc.intro _ fun inner hinner => ?_
    obtain ⟨called, t⟩ := inner
    obtain ⟨frame, hcalls⟩ := hinner
    have ht := settled_of_calls hs rfl hcalls
    cases hcalls with
    | originMarker | originType => exact acc_lookup _ ht.agrees
    | originColumn => exact acc_lookup (.inspect _) ht.agrees
    | originParent hreach hparent _ =>
      exact ih _ ((hreach.settled hs).agrees.orderly.parent_lt hparent) ht
    | originMember => exact acc_navigationEnv _ _ ht

theorem acc_request (request : Request) (hs : (m.rules fun _ => True).Settled s) :
    Acc m.CalledBy (request, s) := by
  cases request with
  | inspect path => exact acc_lookup (.inspect path) hs.agrees
  | effectiveType node => exact acc_lookup (.effectiveType node) hs.agrees
  | navigationEnv node preferStatic => exact acc_navigationEnv node preferStatic hs
  | origin node => exact acc_origin node hs
  | artifactRef reference fallback =>
    refine Acc.intro _ fun inner hinner => ?_
    obtain ⟨called, t⟩ := inner
    obtain ⟨frame, hcalls⟩ := hinner
    cases hcalls
    exact acc_lookup (.inspect _) hs.agrees
  | _ =>
    -- no other request makes calls
    refine Acc.intro _ fun inner hinner => ?_
    obtain ⟨called, t⟩ := inner
    obtain ⟨frame, hcalls⟩ := hinner
    cases hcalls

/-! ## The recursion without bound -/

/-- The search for an origin depends only on those of smaller nodes. -/
theorem exec_searchOrigin_congr {f g : NodeId → CacheM (Option NodeId)}
    (hs : (m.rules fun _ => True).Settled s)
    (h : ∀ parent, parent < node → ∀ t, (m.rules fun _ => True).Settled t →
      exec (f parent) t = exec (g parent) t) :
    exec (m.searchOrigin f node) s = exec (m.searchOrigin g node) s := by
  have hcompute : ∀ t, (m.rules fun _ => True).Settled t →
      exec (m.computeOrigin f node) t = exec (m.computeOrigin g node) t := by
    intro t ht
    refine exec_bind_congr fun marker t hex => ?_
    replace ht := settled_of_exec (keeps_run governs_all (meets_originPart node)) ht hex
    cases marker with
    | some found => rfl
    | none =>
      refine exec_bind_congr fun type t hex => ?_
      replace ht := settled_of_exec
        (keeps_run governs_all (meets_typePart governs_all.closed node)) ht hex
      cases type with
      | some found => rfl
      | none =>
        refine exec_bind_congr fun column t hex => ?_
        replace ht := settled_of_exec (keeps_columnOrigin governs_all node) ht hex
        cases column with
        | some found => rfl
        | none =>
          dsimp only
          unfold inheritedOrigin
          rw [exec_bind_ok (exec_fact? _ _ t), exec_bind_ok (exec_fact? _ _ t)]
          split
          · next parent name hparent _ =>
            rw [exec_bind, exec_bind, h parent (ht.agrees.orderly.parent_lt hparent) t ht]
          · rfl
  refine exec_bind_congr fun owner t hex => ?_
  have ht := settled_of_exec (keeps_ownerOf node) hs hex
  refine exec_bind_congr fun _ t hex => ?_
  replace ht := settled_of_exec (keeps_prepare owner) ht hex
  have hcount := ht.extends (ht.agrees.count countOrigin) (.count _ _)
  have hbody : exec (count countOrigin >>= fun _ => m.computeOrigin f node) t =
      exec (count countOrigin >>= fun _ => m.computeOrigin g node) t := by
    rw [exec_bind_ok (exec_count _ t), exec_bind_ok (exec_count _ t), hcompute _ hcount]
  rw [exec_getOrCompute, exec_getOrCompute, hbody]

theorem exec_originWithin {depth : NodeId} (hs : (m.rules fun _ => True).Settled s)
    (hdepth : node < depth) : exec (m.originWithin depth node) s = exec (m.origin node) s := by
  induction node using Nat.strongRecOn generalizing depth s with
  | ind node ih =>
    obtain ⟨depth, rfl⟩ := Nat.exists_eq_succ_of_ne_zero (Nat.ne_zero_of_lt hdepth)
    refine exec_searchOrigin_congr hs fun parent hlt t ht => ?_
    rw [ih parent hlt ht (Nat.lt_of_lt_of_le hlt (Nat.le_of_lt_succ hdepth)), ih parent hlt ht hlt]

theorem exec_unfolded (h : m.Stacked frames request s) :
    exec (m.answer request) s = exec (m.unfolded request) s := by
  cases request with
  | inspect path =>
    exact Theory.exec_ask governs_all.refines.lawful (.inspect path) trivial h.agrees
  | effectiveType node =>
    cases ho : m.doc.owner? node with
    | none =>
      exact (exec_effectiveType_outside h.agrees.orderly ho).trans
        (exec_effectiveTypeWith_outside h.agrees.orderly ho).symm
    | some owner =>
      have howned : m.IsOwned node := by rw [IsOwned, ho]; rfl
      exact Theory.exec_ask governs_all.refines.lawful (.effectiveType node) (.inl howned) h.agrees
  | origin node =>
    exact exec_searchOrigin_congr (h.settled rfl) fun parent hlt t ht => exec_originWithin ht hlt
  | _ => rfl

/-- No call of a nest runs out of depth. -/
theorem sane_of_stacked (h : m.Stacked frames request s) :
    Ends Sane (fun _ => True) (exec (m.answer request) s).1 := by
  have hlawful := Theory.answers_ask (governs_all (m := m)).refines.lawful
  cases request with
  | inspect path =>
    exact ((hlawful.inspect path trivial).mono (fun _ => governs_all.sane) fun _ _ => trivial) s
      ⟨h.agrees, room_le s⟩ |>.2.2
  | effectiveType node =>
    cases ho : m.doc.owner? node with
    | none =>
      have hex := exec_effectiveType_outside h.agrees.orderly ho
      change Ends Sane _ (exec (m.effectiveType node) s).1
      rw [hex]
      rfl
    | some owner =>
      have howned : m.IsOwned node := by rw [IsOwned, ho]; rfl
      exact ((hlawful.effectiveType node (.inl howned)).mono (fun _ => governs_all.sane)
        fun _ _ => trivial) s ⟨h.agrees, room_le s⟩ |>.2.2
  | _ => exact (keeps_answer governs_all _ (asks_true _) s (h.settled rfl)).2.2

/-- Calls end. Every nest of calls that a request of a session begins is finite. In each of its
caches the holders that are being resolved are all different, no node is on two chains, and the
search for an origin goes to nodes properly around the one before; a lookup calls another one only
with fewer nodes without mark or fewer free holders. Each call is answered by the recursion without
bound on its depth. -/
theorem nested_calls_end {m : Model} {s : Cache} (h : m.Reachable s) (request : Request) :
    Acc m.CalledBy (request, s) ∧
      ∀ frames called t, m.Nest request s frames called t →
        m.Disciplined frames called t ∧
        (called.isLookup = true → ∀ frame next u, m.Calls called t frame next u → m.Shrinks t u) ∧
        exec (m.answer called) t = exec (m.unfolded called) t ∧
        (exec (m.answer called) t).1 ≠ .error (.assertion .endlessNesting) := by
  have hs := settled_of_reachable h
  refine ⟨acc_request request hs, fun frames called t hnest => ?_⟩
  have hstacked := hnest.stacked hs
  refine ⟨hstacked.disciplined, fun hlookup frame next u hcalls => ?_, exec_unfolded hstacked,
    fun hendless => ?_⟩
  · obtain ⟨question, rfl⟩ := exists_question hlookup
    exact (deeper_of_calls hstacked.agrees hcalls).2.2.shrinks
  · have hsane := sane_of_stacked hstacked
    rw [hendless] at hsane
    exact Sane.ne_endlessNesting hsane rfl

/-! ### Two elements that have each other's type -/

/-- Each element has the type of the other one. -/
def loopModel : Model :=
  ⟨.ofDefinitions [("A", .object [("elements", .object [
    ("x", .object [("type", .object [("ref", .array [.string "A", .string "y"])])]),
    ("y", .object [("type", .object [("ref", .array [.string "A", .string "x"])])])])])], {}⟩

/-- The chain of the first element has been begun. -/
def loopBegun : Cache :=
  (exec (loopModel.markChain 4) (Cache.empty.count countWalk)).2

/-- To find the type of the first element, a session asks what its type denotes. -/
theorem loopModel_nests : loopModel.Nest (.effectiveType 4) Cache.empty [.chain [4]]
    (.inspect (loopModel.doc.pathOf 5)) loopBegun := by
  have hmark : exec (loopModel.markChain 4) (Cache.empty.count countWalk) = (.ok (), loopBegun) :=
    Prod.ext (eq_ok_of_toOption (by decide +kernel)) rfl
  have hasks : (loopModel.chainLink 4).Asks loopModel.ask loopBegun
      (.inspect (loopModel.doc.pathOf 5)) loopBegun := .inspect
  exact .inner .outermost (.effectiveType
    (.walking (Cache.get?_empty _ _) .start (Cache.get?_empty _ _) (by decide +kernel) hmark hasks))

theorem loopModel_nest_ends :
    Acc loopModel.CalledBy (.effectiveType 4, Cache.empty) ∧
      loopModel.Nest (.effectiveType 4) Cache.empty [.chain [4]]
        (.inspect (loopModel.doc.pathOf 5)) loopBegun ∧
      loopBegun.get? .effectiveType 4 = some .inProgress ∧ loopBegun.resolving = [] ∧
      (exec (loopModel.inspect (loopModel.doc.pathOf 5)) loopBegun).1 ≠
        .error (.assertion .endlessNesting) := by
  obtain ⟨hacc, hnests⟩ := nested_calls_end (m := loopModel) .new (.effectiveType 4)
  obtain ⟨hdisciplined, _, _, hends⟩ := hnests _ _ _ loopModel_nests
  exact ⟨hacc, loopModel_nests, (hdisciplined.marks 4).mpr (by decide),
    hdisciplined.resolving, hends⟩

end Model

end SchemaRefs
