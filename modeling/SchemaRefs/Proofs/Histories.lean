import SchemaRefs.Proofs.Agreement

/-!
# Answers do not depend on the history of a session

Two sessions that are settled answer every request alike, whatever they have been asked before. For
all requests but those for origins this follows from the agreement on resolutions and effective
types, and from the fact that preparing a definition stores the same in every session. Origins are
kept by sessions too; that the kept ones are those of a new session is an invariant of its own
(`Truthful`), shown along the parents of a node.

* `alike_plain`: settled sessions answer alike;
* `answer_independent_of_history`: the answer to a request is that of a new session.
-/

namespace SchemaRefs

open CacheM

/-- The request asks about the document, not about the cache. -/
def Request.isQuestion : Request → Bool
  | .snapshot _ | .drop _ => false
  | _ => true

namespace Model

variable {m : Model} {s t : Cache} {definition node : NodeId} {α : Type}

variable (m) in
/-- Two sessions between two requests. -/
structure Both (s t : Cache) : Prop where
  left : m.meanings.Settled s
  right : m.meanings.Settled t

theorem Theory.Settled.paired (hs : m.meanings.Settled s) (ht : m.meanings.Settled t) :
    m.Paired m.nesting s t :=
  ⟨⟨hs.agrees, room_le s⟩, ⟨ht.agrees, room_le t⟩,
    fun node => ⟨fun h => absurd h (hs.unmarked node), fun h => absurd h (ht.unmarked node)⟩,
    hs.idle.trans ht.idle.symm, fun n => clear_of_settled n hs⟩

theorem alike_of_keeps {R : Cache → Cache → Prop} {E : ResolveError → Prop} {Q : α → Prop}
    {x : CacheM α} (hx : Keeps m.meanings.Settled R E Q x)
    (hout : ∀ s t, m.Both s t → (exec x s).1 = (exec x t).1) : Alike m.Both x x :=
  fun s t h => ⟨hout s t h, (hx s h.left).1, (hx t h.right).1⟩

/-! ## Questions -/

section

variable (hshort : m.ShortChains)
include hshort

theorem agree_ask : m.Agree m.nesting m.ask :=
  agree_lookups hshort _

theorem alike_run {x : Inquiry α} {Q : α → Prop}
    (hx : x.Meets (m.rules m.IsCanonical).contract Q) : Alike m.Both (x.run m.ask) (x.run m.ask) :=
  alike_of_keeps (keeps_run governs_meanings hx) fun _ _ h =>
    (h.left.paired h.right).run (Theory.answers_ask lawful_meanings) (agree_ask hshort)
      (governs_meanings.refines.meets hx)

theorem alike_inspect {path : Path} (hp : m.IsCanonical path) :
    Alike m.Both (m.inspect path) (m.inspect path) :=
  alike_of_keeps (keeps_inspect governs_meanings hp) fun s t h =>
    (agree_ask hshort).inspect path s t hp (h.left.paired h.right)

theorem alike_effectiveType (node : NodeId) :
    Alike m.Both (m.effectiveType node) (m.effectiveType node) := by
  refine alike_of_keeps (keeps_effectiveType governs_meanings node) fun s t h => ?_
  cases ho : m.doc.owner? node with
  | none =>
    rw [exec_effectiveType_outside h.left.agrees.orderly ho,
      exec_effectiveType_outside h.right.agrees.orderly ho]
  | some owner =>
    have howned : m.IsOwned node := by rw [IsOwned, ho]; rfl
    exact (agree_ask hshort).effectiveType node s t (.inl howned) (h.left.paired h.right)

theorem alike_navigationEnv (node : NodeId) (preferStatic : Bool) :
    Alike m.Both (m.navigationEnv node preferStatic) (m.navigationEnv node preferStatic) := by
  cases ho : m.doc.owner? node with
  | none =>
    refine alike_of_keeps (keeps_navigationEnv governs_meanings node preferStatic) fun s t h => ?_
    have hout : ∀ {u : Cache}, m.meanings.Settled u →
        (exec (m.navigationEnv node preferStatic) u).1 =
        .error (.assertion (.outsideDefinitions node)) := fun hu =>
      congrArg Prod.fst (exec_bind_error (exec_effectiveType_outside hu.agrees.orderly ho) _)
    rw [hout h.left, hout h.right]
  | some owner =>
    have howned : m.IsOwned node := by rw [IsOwned, ho]; rfl
    exact alike_run hshort (meets_envOf (.inl howned) preferStatic)

end

theorem alike_ownerOf (node : NodeId) : Alike m.Both (m.ownerOf node) (m.ownerOf node) := by
  unfold ownerOf
  split
  · exact Alike.pure _
  · exact Alike.throw _

/-! ## Prepared definitions -/

/-- Preparing a definition comes to what can be built, and the structural facts are there then. -/
theorem outcome_prepare (hs : Orderly m s) (ht : Orderly m t) (definition : NodeId) :
    (exec (m.prepare definition) s).1 = (exec (m.prepare definition) t).1 := by
  cases hd : m.doc.isDefinition definition with
  | false =>
    rw [exec_prepare_undefined hd, exec_prepare_undefined hd]
  | true =>
    rcases prepare_cases hs hd with ⟨topology, links, _, hb, hex, _⟩ | ⟨e, hb, hex⟩
    · rcases prepare_cases ht hd with ⟨topology', links', _, hb', hex', _⟩ | ⟨e', hb', hex'⟩
      · rw [hb] at hb'
        cases hb'
        rw [hex, hex']
      · rw [hb] at hb'
        cases hb'
    · rcases prepare_cases ht hd with ⟨topology', links', _, hb', hex', _⟩ | ⟨e', hb', hex'⟩
      · rw [hb] at hb'
        cases hb'
      · rw [hb] at hb'
        cases hb'
        rw [hex, hex']

theorem alike_prepare (definition : NodeId) :
    Alike m.Both (m.prepare definition) (m.prepare definition) :=
  alike_of_keeps (keeps_prepare definition) fun _ _ h =>
    outcome_prepare h.left.agrees.orderly h.right.agrees.orderly definition

theorem topology_of_prepare {topology : Topology} (hs : Orderly m s)
    (hex : exec (m.prepare definition) s = (.ok topology, t)) :
    (t.get? .topology definition).isSome = true := by
  cases hd : m.doc.isDefinition definition with
  | false =>
    rw [exec_prepare_undefined hd] at hex
    cases hex
  | true =>
    rcases prepare_cases hs hd with ⟨_, _, _, _, hex', _, _, hget⟩ | ⟨_, _, hex'⟩
    · rw [hex] at hex'
      cases hex'
      rw [hget]
      rfl
    · rw [hex] at hex'
      cases hex'

theorem get?_of_topology {key : FactKey} (hs : Orderly m s) (hk : key.isStructural = true)
    (ho : m.doc.owner? node = some definition) (hp : (s.get? .topology definition).isSome = true) :
    s.get? key node = (m.freshly definition).get? key node := by
  rw [hs.structural definition key node hk ho, if_pos hp]

theorem alike_preparedFact {key : FactKey} (hk : key.isStructural = true) (node : NodeId) :
    Alike m.Both (m.preparedFact key node) (m.preparedFact key node) := by
  refine alike_of_keeps (keeps_preparedFact key node) fun s t h => ?_
  unfold preparedFact
  have hown : ∀ u, exec (m.ownerOf node) u = _ := exec_ownerOf node
  cases ho : m.doc.owner? node with
  | none =>
    rw [ho] at hown
    rw [exec_bind_error (hown s), exec_bind_error (hown t)]
  | some owner =>
    rw [ho] at hown
    have hout := outcome_prepare h.left.agrees.orderly h.right.agrees.orderly owner
    have hleft := (keeps_prepare owner s h.left).1
    have hright := (keeps_prepare owner t h.right).1
    rw [exec_bind_ok (hown s), exec_bind_ok (hown t)]
    rcases hs : exec (m.prepare owner) s with ⟨rs, s'⟩
    rcases ht : exec (m.prepare owner) t with ⟨rt, t'⟩
    rw [hs] at hleft hout
    rw [ht] at hright hout
    cases hout
    cases rs with
    | error e => rw [exec_bind_error hs, exec_bind_error ht]
    | ok topology =>
      rw [exec_bind_ok hs, exec_bind_ok ht, exec_fact?, exec_fact?,
        get?_of_topology hleft.agrees.orderly hk ho (topology_of_prepare h.left.agrees.orderly hs),
        get?_of_topology hright.agrees.orderly hk ho
          (topology_of_prepare h.right.agrees.orderly ht)]

/-- The topology that numbers the queries of a definition does not depend on the cache. -/
theorem topologyFor?_eq (hs : Orderly m s) (definition : NodeId) : m.topologyFor? definition s =
    (m.doc.buildTopology m.options definition).toOption.map Prod.fst := by
  unfold topologyFor?
  cases hget : s.get? .topology definition with
  | none => rfl
  | some topology =>
    obtain ⟨_, links, hb⟩ := hs.topology definition topology hget
    rw [hb]
    rfl

theorem alike_describe (path : Path) : Alike m.Both (m.describe path) (m.describe path) := by
  intro s t h
  unfold describe
  split
  · exact ⟨rfl, h⟩
  · rw [exec_bind_ok (exec_get s), exec_bind_ok (exec_get t),
      topologyFor?_eq h.left.agrees.orderly, topologyFor?_eq h.right.agrees.orderly]
    exact ⟨rfl, h⟩

/-! ## References to definitions -/

section

variable (hshort : m.ShortChains)
include hshort

theorem alike_longArtifact (node : NodeId) (fallback : Option NodeId) :
    Alike m.Both (m.longArtifact node fallback) (m.longArtifact node fallback) := by
  refine Alike.bind (alike_inspect hshort ⟨node, rfl⟩).attempt fun result => ?_
  cases result with
  | ok r => exact Alike.pure _
  | error e =>
    dsimp only
    split
    · exact Alike.pure _
    · exact Alike.throw _

theorem alike_artifactRef (reference : ArtifactRef) (fallback : Option NodeId) :
    Alike m.Both (m.artifactRef reference fallback) (m.artifactRef reference fallback) := by
  have htarget : Alike m.Both (m.artifactTarget fallback reference)
      (m.artifactTarget fallback reference) := by
    unfold artifactTarget
    split
    · exact Alike.pure _
    · split
      · exact Alike.pure _
      · split
        · exact Alike.throw _
        · dsimp only
          split
          · exact Alike.bind (alike_longArtifact hshort _ fallback) fun _ => Alike.pure _
          · exact Alike.pure _
  refine Alike.bind htarget fun target => ?_
  obtain ⟨name, found⟩ := target
  dsimp only
  split
  · exact Alike.pure _
  · exact Alike.throw _

/-! ## Origins -/

theorem alike_columnOrigin (node : NodeId) :
    Alike m.Both (m.columnOrigin node) (m.columnOrigin node) := by
  refine Alike.bind (alike_preparedFact rfl node) fun column => ?_
  split
  · exact Alike.pure _
  · split
    · exact Alike.bind (alike_inspect hshort ⟨_, rfl⟩) fun _ => Alike.pure _
    · exact Alike.pure _

end

variable (m) in
/-- A session between two requests, in which every origin is that of a new session. -/
structure Truthful (s : Cache) : Prop where
  settled : m.meanings.Settled s
  origins : ∀ node origin, s.get? .origin node = some origin →
    (exec (m.origin node) Cache.empty).1 = .ok origin

theorem truthful_empty : m.Truthful Cache.empty :=
  ⟨settled_empty, by simp⟩

theorem Truthful.extends (h : m.Truthful s) (ht : m.meanings.Settled t) (he : Extends s t) :
    m.Truthful t := by
  refine ⟨ht, fun node origin hget => h.origins node origin ?_⟩
  rwa [he.origins node] at hget

theorem Truthful.drop (h : m.Truthful s) (definition : NodeId) :
    m.Truthful (s.dropAll definition).1 := by
  refine ⟨h.settled.drop definition, fun node origin hget => h.origins node origin ?_⟩
  rw [h.settled.agrees.orderly.owned.get?_drop] at hget
  split at hget
  · cases hget
  · exact hget

variable (m) in
/-- Two such sessions that have prepared a definition. -/
structure InTouch (definition : NodeId) (s t : Cache) : Prop where
  left : m.Truthful s
  right : m.Truthful t
  prepared : (s.get? .topology definition).isSome = true
  prepared' : (t.get? .topology definition).isSome = true

theorem alike_inTouch {E : ResolveError → Prop} {Q : α → Prop}
    {x : CacheM α} (hx : Alike m.Both x x) (hk : Keeps m.meanings.Settled Extends E Q x) :
    Alike (m.InTouch definition) x x := by
  intro s t h
  obtain ⟨hout, hboth⟩ := hx s t ⟨h.left.settled, h.right.settled⟩
  have hs := (hk s h.left.settled).2.1
  have ht := (hk t h.right.settled).2.1
  exact ⟨hout, h.left.extends hboth.left hs, h.right.extends hboth.right ht,
    hs.remembers.prepared definition h.prepared, ht.remembers.prepared definition h.prepared'⟩

section

variable (hshort : m.ShortChains) {owner node : NodeId} (ho : m.doc.owner? node = some owner)
  {f g : NodeId → CacheM (Option NodeId)}
  (hfg : ∀ parent, parent < node → Alike (m.InTouch owner) (f parent) (g parent))
include hshort ho hfg

theorem alike_inheritedOrigin :
    Alike (m.InTouch owner) (m.inheritedOrigin f node) (m.inheritedOrigin g node) := by
  intro s t h
  have hs := h.left.settled.agrees.orderly
  have ht := h.right.settled.agrees.orderly
  have hparent : t.get? .parent node = s.get? .parent node :=
    (get?_of_topology ht rfl ho h.prepared').trans (get?_of_topology hs rfl ho h.prepared).symm
  unfold inheritedOrigin
  rw [exec_bind_ok (exec_fact? _ _ s), exec_bind_ok (exec_fact? _ _ t), hparent]
  split
  · next parent name hget _ =>
    refine Alike.bind (hfg parent (hs.parent_lt hget)) (fun origin => ?_) s t h
    split
    · exact Alike.pure _
    · next origin =>
      refine Alike.bind (alike_inTouch (alike_navigationEnv hshort origin false)
        (keeps_navigationEnv governs_meanings origin false)) fun env => ?_
      split
      · exact Alike.pure _
      · exact Alike.pure _
  · exact ⟨rfl, h⟩

theorem alike_computeOrigin :
    Alike (m.InTouch owner) (m.computeOrigin f node) (m.computeOrigin g node) := by
  have hask : ∀ {x : Inquiry (Option NodeId)},
      x.Meets (m.rules m.IsCanonical).contract m.OwnedAnswer →
      Alike (m.InTouch owner) (x.run m.ask) (x.run m.ask) :=
    fun hx => alike_inTouch (alike_run hshort hx) (keeps_run governs_meanings hx)
  refine Alike.bind (hask (meets_originPart node)) fun marker => ?_
  split
  · exact Alike.pure _
  · refine Alike.bind (hask (meets_typePart pathClosed_isCanonical node)) fun type => ?_
    split
    · exact Alike.pure _
    · refine Alike.bind (alike_inTouch (alike_columnOrigin hshort node)
        (keeps_columnOrigin governs_meanings node)) fun column => ?_
      split
      · exact Alike.pure _
      · exact alike_inheritedOrigin hshort ho hfg

end

theorem Truthful.storeOrigin {owner : NodeId} {origin : Option NodeId} (h : m.Truthful s)
    (ho : m.doc.owner? node = some owner) (hst : s.Stored .origin owner node origin t)
    (hnew : (exec (m.origin node) Cache.empty).1 = .ok origin) : m.Truthful t := by
  refine ⟨h.settled.storeOrigin ho hst, fun other origin' hget => ?_⟩
  by_cases heq : other = node
  · rw [heq, hst.get?_self] at hget
    cases hget
    rw [heq]
    exact hnew
  · rw [hst.get?_of_ne (.inl heq)] at hget
    exact h.origins other origin' hget

/-- In two sessions that have prepared its definition, the origin of a node is found alike, if that
holds for the origins of smaller nodes. The second session is new. -/
theorem keptOrigin_truthful (hshort : m.ShortChains) {owner depth : NodeId}
    (ho : m.doc.owner? node = some owner) (hdepth : node ≤ depth)
    (hfg : ∀ parent, parent < node → Alike (m.InTouch owner) (m.originWithin depth parent)
      (m.originWithin node parent)) (h : m.InTouch owner s t) (hnew : t.get? .origin node = none)
    (horigin : (exec (m.origin node) Cache.empty).1 = (exec (m.keptOrigin node owner node) t).1) :
    (exec (m.keptOrigin depth owner node) s).1 = (exec (m.origin node) Cache.empty).1 ∧
      m.Truthful (exec (m.keptOrigin depth owner node) s).2 := by
  have hcompute : ∀ depth, node ≤ depth → Keeps m.meanings.Settled (OriginsKept node) Sane
      (fun _ => True) (m.computeOrigin (m.originWithin depth) node) := fun depth hle =>
    keeps_computeOrigin governs_meanings node fun parent hlt =>
      (keeps_originWithin governs_meanings (Nat.lt_of_lt_of_le hlt hle)).frame fun _ _ hst =>
        hst.of_le hlt
  rcases keptOrigin_cases ho (hcompute depth hdepth) h.left.settled with
    ⟨origin, hget, hex⟩ | ⟨result, s', _, hrun, _, _, hres⟩
  · rw [hex]
    exact ⟨(h.left.origins node origin hget).symm, h.left⟩
  · rcases keptOrigin_cases ho (hcompute node (Nat.le_refl node)) h.right.settled with
      ⟨origin, hget, _⟩ | ⟨result', t', _, hrun', _, _, hres'⟩
    · rw [hnew] at hget
      cases hget
    · have hs := Extends.count s countOrigin
      have ht := Extends.count t countOrigin
      have hcount : m.InTouch owner (s.count countOrigin) (t.count countOrigin) :=
        ⟨h.left.extends (h.left.settled.extends (h.left.settled.agrees.count _) hs) hs,
          h.right.extends (h.right.settled.extends (h.right.settled.agrees.count _) ht) ht,
          h.prepared, h.prepared'⟩
      obtain ⟨hout, hafter⟩ := alike_computeOrigin hshort ho hfg _ _ hcount
      rw [hrun, hrun'] at hout hafter
      cases hout
      rcases hres with ⟨e, rfl, _, hex⟩ | ⟨origin, u, rfl, hst, hex⟩
      · rcases hres' with ⟨_, heq, _, hex'⟩ | ⟨_, _, heq, _⟩
        · cases heq
          rw [horigin, hex, hex']
          exact ⟨rfl, hafter.left⟩
        · cases heq
      · rcases hres' with ⟨_, heq, _⟩ | ⟨_, _, heq, _, hex'⟩
        · cases heq
        · cases heq
          rw [hex'] at horigin
          rw [hex]
          exact ⟨horigin.symm, hafter.left.storeOrigin ho hst horigin⟩

theorem exec_originWithin_succ (depth : Nat) (node : NodeId) (s : Cache) :
    exec (m.originWithin (depth + 1) node) s =
      match m.doc.owner? node with
      | none => (.error (.assertion (.outsideDefinitions node)), s)
      | some owner =>
        match exec (m.prepare owner) s with
        | (.error e, t) => (.error e, t)
        | (.ok _, t) => exec (m.keptOrigin depth owner node) t := by
  rw [originWithin_succ, exec_bind, exec_ownerOf]
  cases m.doc.owner? node with
  | none => rfl
  | some owner =>
    dsimp only
    rw [exec_bind]
    rcases exec (m.prepare owner) s with ⟨_ | _, t⟩ <;> rfl

/-- The origin of a node is that of a new session, and sessions keep no other. The induction is on
the node: its parent is smaller. -/
theorem originWithin_truthful (hshort : m.ShortChains) (node depth : Nat) (hdepth : node < depth)
    (h : m.Truthful s) :
    (exec (m.originWithin depth node) s).1 = (exec (m.origin node) Cache.empty).1 ∧
      m.Truthful (exec (m.originWithin depth node) s).2 := by
  induction node using Nat.strong_induction_on generalizing depth s with
  | _ node ih =>
    obtain ⟨depth, rfl⟩ := Nat.exists_eq_succ_of_ne_zero (Nat.ne_zero_of_lt hdepth)
    have hnew := exec_originWithin_succ (m := m) node node Cache.empty
    rw [exec_originWithin_succ, origin]
    cases ho : m.doc.owner? node with
    | none =>
      rw [ho] at hnew
      rw [hnew]
      exact ⟨rfl, h⟩
    | some owner =>
      rw [ho] at hnew
      dsimp only at hnew ⊢
      have hout := outcome_prepare h.settled.agrees.orderly orderly_empty owner
      obtain ⟨hs, hext, _⟩ := keeps_prepare owner s h.settled
      obtain ⟨ht, hext', _⟩ := keeps_prepare owner Cache.empty (settled_empty (T := m.meanings))
      rcases hp : exec (m.prepare owner) s with ⟨result, s'⟩
      rcases hp' : exec (m.prepare owner) Cache.empty with ⟨result', t'⟩
      rw [hp] at hs hext hout
      rw [hp'] at ht hext' hout hnew
      cases hout
      cases result with
      | error e =>
        rw [hnew]
        exact ⟨rfl, h.extends hs hext⟩
      | ok topology =>
        have htouch : m.InTouch owner s' t' :=
          ⟨h.extends hs hext, truthful_empty.extends ht hext',
            topology_of_prepare h.settled.agrees.orderly hp, topology_of_prepare orderly_empty hp'⟩
        refine keptOrigin_truthful hshort ho (Nat.le_of_lt_succ hdepth)
          (fun parent hlt u v huv => ?_) htouch (hext'.origins node) (congrArg Prod.fst hnew)
        have hparent : parent < depth := Nat.lt_of_lt_of_le hlt (Nat.le_of_lt_succ hdepth)
        obtain ⟨hu, hu'⟩ := ih parent hlt depth hparent huv.left
        obtain ⟨hv, hv'⟩ := ih parent hlt node hlt huv.right
        have hkept := (keeps_originWithin governs_meanings hparent u huv.left.settled).2.1
        have hkept' := (keeps_originWithin governs_meanings hlt v huv.right.settled).2.1
        exact ⟨hu.trans hv.symm, hu', hv', hkept.prepared owner huv.prepared,
          hkept'.prepared owner huv.prepared'⟩

/-! ## All requests -/

theorem alike_plain (hshort : m.ShortChains) (request : Request)
    (hasks : request.Asks m.IsCanonical) (hplain : request.isPlain = true)
    (hquestion : request.isQuestion = true) :
    Alike m.Both (m.answer request) (m.answer request) := by
  cases request with
  | inspect path => exact alike_inspect hshort hasks
  | artifactRef reference fallback => exact alike_artifactRef hshort reference fallback
  | effectiveType node => exact alike_effectiveType hshort node
  | navigationEnv node preferStatic => exact alike_navigationEnv hshort node preferStatic
  | origin node => cases hplain
  | prepare definition => exact alike_prepare definition
  | queryScopes definition => exact Alike.bind (alike_prepare definition) fun _ => Alike.pure _
  | queryOrMain query main =>
    refine Alike.bind (alike_prepare main) fun topology => ?_
    split
    · exact Alike.throw _
    · split
      · exact Alike.throw _
      · exact Alike.pure _
  | queryForElements carrier =>
    exact Alike.bind (alike_ownerOf carrier) fun owner =>
      Alike.bind (alike_prepare owner) fun _ => Alike.pure _
  | queryNumber query => exact Alike.bind (alike_preparedFact rfl query) fun _ => Alike.pure _
  | columnElement column => exact alike_preparedFact rfl column
  | elementColumn element => exact alike_preparedFact rfl element
  | parentOf member => exact alike_preparedFact rfl member
  | describe path => exact alike_describe path
  | snapshot definition => cases hquestion
  | drop definition => cases hplain

/-- Every session keeps the origins of a new one only. -/
theorem truthful_of_reachable (hshort : m.ShortChains) (h : m.ReachableBy m.IsCanonical s) :
    m.Truthful s := by
  induction h with
  | new => exact truthful_empty
  | @after s request hasks _ ih =>
    cases hplain : request.isPlain with
    | true =>
      obtain ⟨ht, hext, _⟩ := keeps_plain governs_meanings request hasks hplain s ih.settled
      exact ih.extends ht hext
    | false =>
      cases request with
      | origin node => exact (originWithin_truthful hshort node _ (Nat.lt_succ_self node) ih).2
      | drop definition => exact ih.drop definition
      | _ => cases hplain

/-- The answer to a question does not depend on what a session has been asked before: it is the
answer of a new session. Chains of types are short, and inspected paths are paths of nodes. -/
theorem answer_independent_of_history {m : Model} (hshort : m.ShortChains) {s : Cache}
    (h : m.ReachableBy m.IsCanonical s) (request : Request) (hasks : request.Asks m.IsCanonical)
    (hquestion : request.isQuestion = true) :
    (exec (m.answer request) s).1 = (exec (m.answer request) Cache.empty).1 := by
  have hs := truthful_of_reachable hshort h
  cases hplain : request.isPlain with
  | true =>
    exact (alike_plain hshort request hasks hplain hquestion s Cache.empty
      ⟨hs.settled, settled_empty⟩).1
  | false =>
    cases request with
    | origin node => exact (originWithin_truthful hshort node _ (Nat.lt_succ_self node) hs).1
    | drop definition => cases hquestion
    | _ => cases hplain

/-- The column of the view has been inspected, a request outside all definitions has failed, and the
entity has been dropped. -/
def viewHistory : Cache :=
  (exec (viewModel.answer (.drop 2)) (exec (viewModel.answer (.effectiveType 0)) viewSession).2).2

theorem reachableBy_viewHistory : viewModel.ReachableBy viewModel.IsCanonical viewHistory :=
  .after _ trivial (.after _ trivial (.after _ ⟨13, by decide +kernel⟩ .new))

/-- The column is still known, the entity is not; the member of the view comes from that of the
entity, as in a new session. -/
theorem viewHistory_answers_origin :
    (viewHistory.get? .resolution 13).isSome = true ∧ (viewHistory.entryAt? 2).isSome = false ∧
      (exec (viewModel.answer (.origin 17)) viewHistory).1 = .ok (some 4) := by
  refine ⟨by decide +kernel, by decide +kernel, ?_⟩
  have hnew : (exec (viewModel.origin 17) Cache.empty).1 = .ok (some 4) :=
    eq_ok_of_toOption (by decide +kernel)
  exact (answer_independent_of_history (shortChains_of_size (by decide +kernel))
    reachableBy_viewHistory (.origin 17) trivial rfl).trans hnew

end Model

end SchemaRefs
