import SchemaRefs.Proofs.Loading
import SchemaRefs.Proofs.Rules
import SchemaRefs.Session.Describe
import SchemaRefs.Session.Origin
import SchemaRefs.Snapshot

/-!
# Requests to a session

A session answers requests one after the other. Between two requests it is settled: its cache agrees
with the rules, and no chain is being walked. Every request keeps sessions settled (`keeps_answer`),
so all sessions that can be reached from a new one are (`settled_of_reachable`).

The main statements:

* `entries_owned_and_dropped_exactly`: every entry of the cache belongs to the definition around its
  node, no request fails because of the cache, and dropping a definition removes its entries and
  nothing else;
* `failed_inspection_is_model_error_or_defect`: an inspection fails by an error in the document, or
  by one of two assertions, for which `Defect` names the causes. Both occur
  (`inspection_fails_by_assertion`).
-/

namespace SchemaRefs

open CacheM

/-- What a session can be asked. -/
inductive Request where
  | inspect (path : Path)
  | artifactRef (reference : Model.ArtifactRef) (fallback : Option NodeId)
  | effectiveType (node : NodeId)
  | navigationEnv (node : NodeId) (preferStatic : Bool)
  | origin (node : NodeId)
  | prepare (definition : NodeId)
  | queryScopes (definition : NodeId)
  | queryOrMain (query main : NodeId)
  | queryForElements (carrier : NodeId)
  | queryNumber (query : NodeId)
  | columnElement (column : NodeId)
  | elementColumn (element : NodeId)
  | parentOf (member : NodeId)
  | describe (path : Path)
  | snapshot (definition : NodeId)
  | drop (definition : NodeId)
deriving Repr, DecidableEq, Inhabited

namespace Request

/-- The answers to a request. -/
def Result : Request → Type
  | .inspect _ => Resolution
  | .artifactRef _ _ => NodeId
  | .effectiveType _ => NodeId
  | .navigationEnv _ _ => Option NodeId
  | .origin _ => Option NodeId
  | .prepare _ => Topology
  | .queryScopes _ => List QueryScope
  | .queryOrMain _ _ => NodeId
  | .queryForElements _ => Option NodeId
  | .queryNumber _ => Option Nat
  | .columnElement _ => Option NodeId
  | .elementColumn _ => Option NodeId
  | .parentOf _ => Option NodeId
  | .describe _ => Description
  | .snapshot _ => Snapshot
  | .drop _ => Nat

/-- The paths that are inspected have `P`. -/
def Asks (P : Path → Prop) : Request → Prop
  | .inspect path => P path
  | _ => True

/-- The request neither searches for origins nor drops a definition. -/
def isPlain : Request → Bool
  | .origin _ | .drop _ => false
  | _ => true

end Request

/-- The cache has refused a fact. -/
def ResolveError.isCacheFailure : ResolveError → Bool
  | .assertion (.foreignEntry ..) => true
  | .assertion (.factChange ..) => true
  | _ => false

/-- Neither has the cache refused a fact, nor were questions nested too deep, nor has a source no
links. -/
def ResolveError.isSane : ResolveError → Bool
  | .assertion .endlessNesting => false
  | .assertion (.unlinkedSource _) => false
  | e => !e.isCacheFailure

namespace Model

variable (m : Model) {bound : Nat} {node owner : NodeId} {e : ResolveError} {α : Type}

/-- The answer to a request. -/
def answer : (request : Request) → CacheM request.Result
  | .inspect path => m.inspect path
  | .artifactRef reference fallback => m.artifactRef reference fallback
  | .effectiveType node => m.effectiveType node
  | .navigationEnv node preferStatic => m.navigationEnv node preferStatic
  | .origin node => m.origin node
  | .prepare definition => m.prepare definition
  | .queryScopes definition => m.queryScopes definition
  | .queryOrMain query main => m.queryOrMain query main
  | .queryForElements carrier => m.queryForElements carrier
  | .queryNumber query => m.queryNumber query
  | .columnElement column => m.columnElement column
  | .elementColumn element => m.elementColumn element
  | .parentOf member => m.parentOf member
  | .describe path => m.describe path
  | .snapshot definition => m.snapshot definition
  | .drop definition => drop definition

/-- The caches of sessions whose requests inspect only paths with `P`. -/
inductive ReachableBy (P : Path → Prop) : Cache → Prop where
  | new : ReachableBy P Cache.empty
  | after {s : Cache} (request : Request) : request.Asks P → ReachableBy P s →
      ReachableBy P (exec (m.answer request) s).2

/-- The caches of all sessions. -/
def Reachable (s : Cache) : Prop :=
  m.ReachableBy (fun _ => True) s

variable {m}

/-- The cache of a session between two requests. -/
structure Theory.Settled (T : Theory m) (s : Cache) : Prop where
  agrees : T.Agrees s
  unmarked : ∀ node, s.get? .effectiveType node ≠ some .inProgress
  idle : s.resolving = []

/-- A theory of sessions that ask for paths with `P`: it refines the rules. -/
structure Theory.Governs (T : Theory m) (P : Path → Prop) : Prop where
  closed : m.PathClosed P
  refines : T.Refines (m.rules P)

variable {P : Path → Prop} {T : Theory m} {s t : Cache}

/-- A failure that is not the session's fault. -/
def Sane (e : ResolveError) : Prop :=
  e.isSane = true

theorem Sane.not_cacheFailure (h : Sane e) : e.isCacheFailure = false := by
  unfold Sane ResolveError.isSane at h
  split at h
  · cases h
  · cases h
  · simpa using h

theorem Sane.ne_endlessNesting (h : Sane e) : e ≠ .assertion .endlessNesting := by
  rintro rfl
  cases h

theorem Sane.ne_unlinkedSource (h : Sane e) (path : Path) :
    e ≠ .assertion (.unlinkedSource path) := by
  rintro rfl
  cases h

theorem Theory.Governs.sane (hT : T.Governs P) (h : T.Fails e) : Sane e := by
  cases e with
  | model e => rfl
  | assertion cause => cases (hT.refines.assertion cause).mp h <;> rfl

theorem settled_empty : T.Settled Cache.empty :=
  ⟨⟨orderly_empty, by simp, by simp⟩, by simp, rfl⟩

theorem Theory.Settled.extends (h : T.Settled s) (ht : T.Agrees t) (he : Extends s t) :
    T.Settled t :=
  ⟨ht, fun node hmark => h.unmarked node ((he.marks node).mp hmark), he.resolving.trans h.idle⟩

/-! ## Questions that a request begins with -/

/-- What lookups keep, requests keep. -/
theorem keeps_of_ready {E : ResolveError → Prop} {Q : α → Prop} {x : CacheM α}
    (h : Keeps (T.Ready m.nesting) Extends E Q x) :
    Keeps T.Settled Extends E Q x := by
  intro s hs
  obtain ⟨hready, hext, hend⟩ := h s ⟨hs.agrees, room_le s⟩
  exact ⟨hs.extends hready.agrees hext, hext, hend⟩

theorem keeps_run (hT : T.Governs P) {x : Inquiry α} {Q : α → Prop}
    (hx : x.Meets (m.rules P).contract Q) :
    Keeps T.Settled Extends T.Fails Q (x.run m.ask) :=
  keeps_of_ready ((Theory.answers_ask hT.refines.lawful).run (hT.refines.meets hx))

theorem keeps_inspect (hT : T.Governs P) {path : Path} (hp : P path) :
    Keeps T.Settled Extends T.Fails (T.Resolves path) (m.inspect path) :=
  keeps_of_ready ((Theory.answers_ask hT.refines.lawful).inspect path (hT.refines.path path hp))

/-- A node outside every definition can be asked for, and has no effective type. -/
theorem exec_effectiveType_outside (h : Orderly m s) (ho : m.doc.owner? node = none) :
    exec (m.effectiveType node) s =
      (.error (.assertion (.outsideDefinitions node)), s.count countWalk) :=
  exec_effectiveTypeWith_outside h ho

theorem keeps_outside {x : CacheM α} {Q : α → Prop}
    (hx : ∀ s, Orderly m s → exec x s =
      (.error (.assertion (.outsideDefinitions node)), s.count countWalk)) :
    Keeps T.Settled Extends Sane Q x := by
  intro s hs
  rw [hx s hs.agrees.orderly]
  have hcount := Extends.count s countWalk
  exact ⟨hs.extends (hs.agrees.count _) hcount, hcount, rfl⟩

theorem keeps_effectiveType (hT : T.Governs P) (node : NodeId) :
    Keeps T.Settled Extends Sane (fun _ => True) (m.effectiveType node) := by
  cases ho : m.doc.owner? node with
  | none => exact keeps_outside fun s hs => exec_effectiveType_outside hs ho
  | some owner =>
    have howned : m.IsOwned node := by rw [IsOwned, ho]; rfl
    exact (keeps_of_ready ((Theory.answers_ask hT.refines.lawful).effectiveType node
      (hT.refines.node node (.inl howned)))).mono (fun _ => hT.sane) fun _ _ => trivial

theorem keeps_navigationEnv (hT : T.Governs P) (node : NodeId) (preferStatic : Bool) :
    Keeps T.Settled Extends Sane (fun _ => True) (m.navigationEnv node preferStatic) := by
  cases ho : m.doc.owner? node with
  | none => exact keeps_outside fun s hs => exec_bind_error (exec_effectiveType_outside hs ho) _
  | some owner =>
    have howned : m.IsOwned node := by rw [IsOwned, ho]; rfl
    exact (keeps_run hT (meets_envOf (.inl howned) preferStatic)).mono (fun _ => hT.sane)
      fun _ _ => trivial

theorem keeps_prepare (definition : NodeId) :
    Keeps T.Settled Extends Sane (fun _ => True) (m.prepare definition) := by
  intro s hs
  cases hd : m.doc.isDefinition definition with
  | false =>
    rw [exec_prepare_undefined hd]
    exact ⟨hs, .refl _, rfl⟩
  | true =>
    rcases prepare_cases hs.agrees.orderly hd with ⟨topology, links, t, _, hex, ht, hst, _⟩
      | ⟨e, _, hex⟩
    · rw [hex]
      have hext := Extends.steady hst
      exact ⟨hs.extends (hs.agrees.steady ht hst) hext, hext, trivial⟩
    · rw [hex]
      exact ⟨hs, .refl _, rfl⟩

theorem keeps_of_read {x : CacheM α} {Q : α → Prop}
    (h : ∀ s, (exec x s).2 = s ∧ Ends Sane Q (exec x s).1) :
    Keeps T.Settled Extends Sane Q x := by
  intro s hs
  rw [(h s).1]
  exact ⟨hs, .refl _, (h s).2⟩

theorem keeps_ownerOf (node : NodeId) :
    Keeps T.Settled Extends Sane (fun owner => m.doc.owner? node = some owner)
      (m.ownerOf node) := by
  refine keeps_of_read fun s => ?_
  rw [exec_ownerOf]
  cases m.doc.owner? node <;> exact ⟨rfl, rfl⟩

theorem keeps_preparedFact (key : FactKey) (node : NodeId) :
    Keeps T.Settled Extends Sane (fun _ => True) (m.preparedFact key node) :=
  Keeps.bind Extends.trans (keeps_ownerOf node) fun owner _ =>
    Keeps.bind Extends.trans (keeps_prepare owner) fun _ _ => keeps_of_read fun _ => ⟨rfl, trivial⟩

/-! ## References to definitions -/

theorem keeps_longArtifact (hT : T.Governs P) (node : NodeId) (fallback : Option NodeId) :
    Keeps T.Settled Extends Sane (fun _ => True) (m.longArtifact node fallback) := by
  refine Keeps.bind Extends.trans (keeps_inspect hT (hT.closed.node node)).attempt
    fun result hresult => ?_
  cases result with
  | ok r => exact Keeps.pure Extends.refl trivial
  | error e =>
    dsimp only
    split
    · exact Keeps.pure Extends.refl trivial
    · exact Keeps.throw Extends.refl (hT.sane hresult)

theorem keeps_artifactRef (hT : T.Governs P) (reference : ArtifactRef) (fallback : Option NodeId) :
    Keeps T.Settled Extends Sane (fun _ => True) (m.artifactRef reference fallback) := by
  have hpure : ∀ {α : Type} (a : α),
      Keeps T.Settled Extends Sane (fun _ => True) (pure a : CacheM α) :=
    fun a => Keeps.pure Extends.refl trivial
  have htarget : Keeps T.Settled Extends Sane (fun _ => True)
      (m.artifactTarget fallback reference) := by
    unfold artifactTarget
    split
    · exact hpure _
    · split
      · exact hpure _
      · split
        · exact Keeps.throw Extends.refl rfl
        · dsimp only
          split
          · exact Keeps.bind Extends.trans (keeps_longArtifact hT _ fallback) fun _ _ => hpure _
          · exact hpure _
  refine Keeps.bind Extends.trans htarget fun target _ => ?_
  obtain ⟨name, found⟩ := target
  dsimp only
  split
  · exact hpure _
  · exact Keeps.throw Extends.refl rfl

/-! ## Origins -/

/-- Only origins of nodes below the bound have changed, and nothing is forgotten. -/
structure OriginsKept (bound : Nat) (s t : Cache) : Prop where
  origins : ∀ node, bound ≤ node → t.get? .origin node = s.get? .origin node
  remembers : Remembers s t

theorem OriginsKept.refl (bound : Nat) (s : Cache) : OriginsKept bound s s :=
  ⟨fun _ _ => rfl, .refl s⟩

theorem OriginsKept.trans (s t u : Cache) (h : OriginsKept bound s t)
    (h' : OriginsKept bound t u) : OriginsKept bound s u :=
  ⟨fun node hn => (h'.origins node hn).trans (h.origins node hn), h.remembers.trans h'.remembers⟩

theorem OriginsKept.of_extends (s t : Cache) (h : Extends s t) :
    OriginsKept bound s t :=
  ⟨fun node _ => h.origins node, h.remembers⟩

theorem OriginsKept.prepared (h : OriginsKept bound s t) (definition : NodeId)
    (hd : (s.get? .topology definition).isSome = true) :
    (t.get? .topology definition).isSome = true :=
  h.remembers.prepared definition hd

theorem OriginsKept.of_le {bound' : Nat} (h : OriginsKept bound s t) (hle : bound ≤ bound') :
    OriginsKept bound' s t :=
  ⟨fun node hn => h.origins node (Nat.le_trans hle hn), h.remembers⟩

theorem keeps_columnOrigin (hT : T.Governs P) (node : NodeId) :
    Keeps T.Settled Extends Sane (fun _ => True) (m.columnOrigin node) := by
  refine Keeps.bind Extends.trans (keeps_preparedFact .column node) fun column _ => ?_
  split
  · exact Keeps.pure Extends.refl trivial
  · split
    · exact Keeps.bind Extends.trans
        ((keeps_inspect hT (hT.closed.node _)).mono (fun _ => hT.sane) fun _ _ => trivial)
        fun _ _ => Keeps.pure Extends.refl trivial
    · exact Keeps.pure Extends.refl trivial

/-- The origin of the parent is found among smaller nodes. -/
theorem keeps_inheritedOrigin (hT : T.Governs P) {originOf : NodeId → CacheM (Option NodeId)}
    (horigin : ∀ parent, parent < node →
      Keeps T.Settled (OriginsKept node) Sane (fun _ => True) (originOf parent)) :
    Keeps T.Settled (OriginsKept node) Sane (fun _ => True)
      (m.inheritedOrigin originOf node) := by
  have hpure : ∀ {α : Type} (a : α),
      Keeps T.Settled (OriginsKept node) Sane (fun _ => True) (pure a : CacheM α) :=
    fun a => Keeps.pure (OriginsKept.refl node) trivial
  have hread : Keeps T.Settled (OriginsKept node) Sane
      (fun parent => ∀ p, parent = some p → p < node) (fact? .parent node) := by
    intro s hs
    exact ⟨hs, .refl _ _, fun p hp => hs.agrees.orderly.parent_lt hp⟩
  refine Keeps.bind OriginsKept.trans hread fun parent hparent => ?_
  split
  · next parent name _ =>
    refine Keeps.bind OriginsKept.trans (horigin parent (hparent parent rfl)) fun origin _ => ?_
    split
    · exact hpure _
    · next origin =>
      refine Keeps.bind OriginsKept.trans
        ((keeps_navigationEnv hT origin false).frame OriginsKept.of_extends) fun env _ => ?_
      split
      · exact hpure _
      · exact hpure _
  · exact hpure _

theorem keeps_computeOrigin (hT : T.Governs P)
    {originOf : NodeId → CacheM (Option NodeId)} (node : NodeId)
    (horigin : ∀ parent, parent < node →
      Keeps T.Settled (OriginsKept node) Sane (fun _ => True) (originOf parent)) :
    Keeps T.Settled (OriginsKept node) Sane (fun _ => True) (m.computeOrigin originOf node) := by
  have hpure : ∀ {α : Type} (a : α),
      Keeps T.Settled (OriginsKept node) Sane (fun _ => True) (pure a : CacheM α) :=
    fun a => Keeps.pure (OriginsKept.refl node) trivial
  have hask : ∀ {x : Inquiry (Option NodeId)}, x.Meets (m.rules P).contract m.OwnedAnswer →
      Keeps T.Settled (OriginsKept node) Sane (fun _ => True) (x.run m.ask) :=
    fun hx => ((keeps_run hT hx).mono (fun _ => hT.sane) fun _ _ => trivial).frame
      OriginsKept.of_extends
  refine Keeps.bind OriginsKept.trans (hask (meets_originPart node)) fun marker _ => ?_
  split
  · exact hpure _
  · refine Keeps.bind OriginsKept.trans (hask (meets_typePart hT.closed node)) fun type _ => ?_
    split
    · exact hpure _
    · refine Keeps.bind OriginsKept.trans
        ((keeps_columnOrigin hT node).frame OriginsKept.of_extends) fun column _ => ?_
      split
      · exact hpure _
      · exact keeps_inheritedOrigin hT horigin

theorem OriginsKept.stored {origin : Option NodeId}
    (h : s.Stored .origin owner node origin t) (hnew : s.get? .origin node = none) :
    OriginsKept (node + 1) s t := by
  refine ⟨fun other ho => h.get?_of_ne (.inl (Nat.ne_of_gt ho)), .stored h fun old hold => ?_⟩
  rw [hnew] at hold
  cases hold

theorem Theory.Settled.storeOrigin (h : T.Settled s) {origin : Option NodeId}
    (ho : m.doc.owner? node = some owner) (hst : s.Stored .origin owner node origin t) :
    T.Settled t := by
  refine ⟨⟨h.agrees.orderly.stored hst ho rfl (by decide), fun holder r hr => ?_,
    fun other type ht => ?_⟩, fun other hmark => ?_, hst.resolving_eq.trans h.idle⟩
  · rw [hst.get?_of_ne (.inr (by decide))] at hr
    exact h.agrees.kept holder r hr
  · rw [hst.get?_of_ne (.inr (by decide))] at ht
    exact h.agrees.typed other type ht
  · rw [hst.get?_of_ne (.inr (by decide))] at hmark
    exact h.unmarked other hmark

/-- The counter of origins goes up. -/
def countOrigin (stats : Stats) : Stats :=
  { stats with originComputations := stats.originComputations + 1 }

variable (m) in
/-- The search for the origin of a node, once its definition is prepared. -/
def keptOrigin (depth : Nat) (owner node : NodeId) : CacheM (Option NodeId) :=
  getOrCompute .origin owner node do
    count countOrigin
    m.computeOrigin (m.originWithin depth) node

theorem originWithin_succ (depth : Nat) (node : NodeId) :
    m.originWithin (depth + 1) node =
      (m.ownerOf node >>= fun owner =>
        m.prepare owner >>= fun _ => m.keptOrigin depth owner node) := rfl

/-- An origin is kept already, or it is searched for and kept. -/
theorem keptOrigin_cases {depth : Nat} (ho : m.doc.owner? node = some owner)
    (hcompute : Keeps T.Settled (OriginsKept node) Sane (fun _ => True)
      (m.computeOrigin (m.originWithin depth) node)) (hs : T.Settled s) :
    (∃ origin, s.get? .origin node = some origin ∧
      exec (m.keptOrigin depth owner node) s = (.ok origin, s)) ∨
    ∃ result t, s.get? .origin node = none ∧
      exec (m.computeOrigin (m.originWithin depth) node) (s.count countOrigin) = (result, t) ∧
      T.Settled t ∧ OriginsKept node s t ∧
      ((∃ e, result = .error e ∧ Sane e ∧ exec (m.keptOrigin depth owner node) s = (.error e, t)) ∨
        ∃ origin u, result = .ok origin ∧ t.Stored .origin owner node origin u ∧
          exec (m.keptOrigin depth owner node) s = (.ok origin, u)) := by
  have hcount := Extends.count s countOrigin
  obtain ⟨ht, hkept, hend⟩ := hcompute _ (hs.extends (hs.agrees.count countOrigin) hcount)
  replace hkept := OriginsKept.trans _ _ _ (OriginsKept.of_extends _ _ hcount) hkept
  cases hknown : s.get? .origin node with
  | some origin =>
    refine .inl ⟨origin, rfl, ?_⟩
    rw [keptOrigin, exec_getOrCompute, hknown]
  | none =>
    rcases hout : exec (m.computeOrigin (m.originWithin depth) node) (s.count countOrigin) with
      ⟨result, t⟩
    rw [hout] at ht hkept hend
    have hex : exec (count countOrigin >>= fun _ => m.computeOrigin (m.originWithin depth) node) s =
        (result, t) := (exec_bind_ok (exec_count countOrigin s) _).trans hout
    refine .inr ⟨result, t, rfl, rfl, ht, hkept, ?_⟩
    cases result with
    | error e =>
      refine .inl ⟨e, rfl, hend, ?_⟩
      rw [keptOrigin, exec_getOrCompute, hknown, hex]
    | ok origin =>
      have hfree : t.get? .origin node = none := (hkept.origins node (Nat.le_refl _)).trans hknown
      obtain ⟨u, hu, hst⟩ := ht.agrees.orderly.owned.getOrCompute_new ho hknown hfree hex
      exact .inr ⟨origin, u, rfl, hst, hu⟩

theorem keeps_originWithin (hT : T.Governs P) {depth : Nat} (hdepth : node < depth) :
    Keeps T.Settled (OriginsKept (node + 1)) Sane (fun _ => True) (m.originWithin depth node) := by
  induction depth generalizing node with
  | zero => cases hdepth
  | succ depth ih =>
    rw [originWithin_succ]
    refine Keeps.bind OriginsKept.trans ((keeps_ownerOf node).frame OriginsKept.of_extends)
      fun owner howner => ?_
    refine Keeps.bind OriginsKept.trans ((keeps_prepare owner).frame OriginsKept.of_extends)
      fun _ _ => ?_
    have hcompute := keeps_computeOrigin hT node fun parent hlt =>
      (ih (Nat.lt_of_lt_of_le hlt (Nat.le_of_lt_succ hdepth))).frame fun s t hst => hst.of_le hlt
    intro s hs
    rcases keptOrigin_cases howner hcompute hs with
      ⟨origin, _, hex⟩ | ⟨result, t, hnone, _, ht, hkept, hres⟩
    · rw [hex]
      exact ⟨hs, .refl _ _, trivial⟩
    · rcases hres with ⟨e, _, he, hex⟩ | ⟨origin, u, _, hst, hex⟩
      · rw [hex]
        exact ⟨ht, hkept.of_le (Nat.le_succ node), he⟩
      · rw [hex]
        have hnew := (hkept.origins node (Nat.le_refl node)).trans hnone
        exact ⟨ht.storeOrigin howner hst,
          .trans _ t _ (hkept.of_le (Nat.le_succ node)) (.stored hst hnew), trivial⟩

/-! ## All requests -/

theorem Theory.Settled.drop (h : T.Settled s) (definition : NodeId) :
    T.Settled (s.dropAll definition).1 := by
  have hget : ∀ {key : FactKey} {node : NodeId} {value : key.Value},
      (s.dropAll definition).1.get? key node = some value → s.get? key node = some value := by
    intro key node value hv
    rw [h.agrees.orderly.owned.get?_drop] at hv
    split at hv
    · cases hv
    · exact hv
  exact ⟨⟨h.agrees.orderly.drop definition, fun holder r hr => h.agrees.kept holder r (hget hr),
    fun node type ht => h.agrees.typed node type (hget ht)⟩,
      fun node hm => h.unmarked node (hget hm),
    h.idle⟩

theorem exec_drop (definition : NodeId) (s : Cache) :
    exec (drop definition) s = (.ok (s.dropAll definition).2, (s.dropAll definition).1) := rfl

theorem keeps_plain (hT : T.Governs P) (request : Request) (hasks : request.Asks P)
    (hplain : request.isPlain = true) :
    Keeps T.Settled Extends Sane (fun _ => True) (m.answer request) := by
  have hprepared : ∀ {α : Type} (definition : NodeId) {f : Topology → CacheM α},
      (∀ topology, Keeps T.Settled Extends Sane (fun _ => True) (f topology)) →
      Keeps T.Settled Extends Sane (fun _ => True) (m.prepare definition >>= f) :=
    fun definition _ hf => Keeps.bind Extends.trans (keeps_prepare definition) fun topology _ =>
      hf topology
  have hpure : ∀ {α : Type} (a : α),
      Keeps T.Settled Extends Sane (fun _ => True) (pure a : CacheM α) :=
    fun a => Keeps.pure Extends.refl trivial
  cases request with
  | inspect path => exact (keeps_inspect hT hasks).mono (fun _ => hT.sane) fun _ _ => trivial
  | artifactRef reference fallback => exact keeps_artifactRef hT reference fallback
  | effectiveType node => exact keeps_effectiveType hT node
  | navigationEnv node preferStatic => exact keeps_navigationEnv hT node preferStatic
  | origin node => cases hplain
  | prepare definition => exact keeps_prepare definition
  | queryScopes definition => exact hprepared definition fun _ => hpure _
  | queryOrMain query main =>
    refine hprepared main fun topology => ?_
    split
    · exact Keeps.throw Extends.refl rfl
    · split
      · exact Keeps.throw Extends.refl rfl
      · exact hpure _
  | queryForElements carrier =>
    exact Keeps.bind Extends.trans (keeps_ownerOf carrier) fun owner _ =>
      hprepared owner fun _ => hpure _
  | queryNumber query =>
    exact Keeps.bind Extends.trans (keeps_preparedFact .query query) fun _ _ => hpure _
  | columnElement column => exact keeps_preparedFact .element column
  | elementColumn element => exact keeps_preparedFact .column element
  | parentOf member => exact keeps_preparedFact .parent member
  | describe path =>
    refine keeps_of_read fun s => ?_
    unfold answer describe
    dsimp only
    split <;> exact ⟨rfl, by first | rfl | trivial⟩
  | snapshot definition =>
    exact hprepared definition fun topology => keeps_of_read fun _ => ⟨rfl, trivial⟩
  | drop definition => cases hplain

theorem keeps_answer (hT : T.Governs P) (request : Request) (hasks : request.Asks P) :
    Keeps T.Settled (fun _ _ => True) Sane (fun _ => True) (m.answer request) := by
  cases hplain : request.isPlain with
  | true => exact (keeps_plain hT request hasks hplain).frame fun _ _ _ => trivial
  | false =>
    cases request with
    | origin node =>
      exact (keeps_originWithin hT (Nat.lt_succ_self node)).frame fun _ _ _ => trivial
    | drop definition =>
      intro s hs
      exact ⟨hs.drop definition, trivial, trivial⟩
    | _ => cases hplain

/-- Every session is settled between two requests. -/
theorem settled_of_reachableBy (hT : T.Governs P) (h : m.ReachableBy P s) : T.Settled s := by
  induction h with
  | new => exact settled_empty
  | after request hasks _ ih => exact (keeps_answer hT request hasks _ ih).1

theorem governs_rules (hP : m.PathClosed P) : (m.rules P).Governs P :=
  ⟨hP, (lawful_rules hP).refines⟩

theorem governs_all : (m.rules fun _ => True).Governs fun _ => True :=
  governs_rules ⟨fun _ => trivial, fun _ _ _ _ _ _ _ => trivial⟩

theorem asks_true (request : Request) : request.Asks fun _ => True := by
  cases request <;> trivial

theorem settled_of_reachable (h : m.Reachable s) : (m.rules fun _ => True).Settled s :=
  settled_of_reachableBy governs_all h

theorem Reachable.answered (h : m.Reachable s) (request : Request)
    {outcome : Except ResolveError request.Result}
    (hex : exec (m.answer request) s = (outcome, t)) : m.Reachable t := by
  have hafter := ReachableBy.after request (asks_true request) h
  rwa [hex] at hafter

/-! ## The cache -/

theorem Theory.Settled.owner_of_entry (h : T.Settled s) {entry : Entry}
    (he : s.entryAt? node = some entry) : m.doc.owner? node = some entry.owner :=
  h.agrees.orderly.owned.owner node entry.owner (by rw [Cache.owner?, he, Option.map_some])

/-- Dropping a definition removes the entries of its nodes. -/
theorem Theory.Settled.entryAt?_drop (h : T.Settled s) {definition : NodeId}
    (hd : m.doc.isDefinition definition = true) (node : NodeId) :
    (m.doc.Within definition node → (s.dropAll definition).1.entryAt? node = none) ∧
      (¬ m.doc.Within definition node →
        (s.dropAll definition).1.entryAt? node = s.entryAt? node) := by
  have howned := h.agrees.orderly.owned
  rw [Cache.entryAt?_dropAll]
  constructor
  · intro hw
    split
    · rfl
    · next hn =>
      cases he : s.entryAt? node with
      | none => rfl
      | some entry =>
        exact absurd ((howned.mem_ownedNodes_iff hd).mpr ⟨hw, by rw [he]; rfl⟩) hn
  · intro hw
    rw [if_neg fun hn => hw ((howned.mem_ownedNodes_iff hd).mp hn).1]

theorem Theory.Settled.removed_drop (h : T.Settled s) {definition : NodeId}
    (hd : m.doc.isDefinition definition = true) :
    ∃ nodes : List NodeId, nodes.Nodup ∧
      (∀ node, node ∈ nodes ↔ m.doc.Within definition node ∧ (s.entryAt? node).isSome = true) ∧
      (s.dropAll definition).2 = nodes.length := by
  have howned := h.agrees.orderly.owned
  refine ⟨s.ownedNodes definition, howned.nodup definition,
    fun node => howned.mem_ownedNodes_iff hd, ?_⟩
  exact Cache.removed_dropAll (howned.nodup definition) fun node hn =>
    ((howned.mem_ownedNodes_iff hd).mp hn).2

/-- In every session, each entry of the cache belongs to the definition that its node lies in. Hence
no request fails because of the cache, and dropping a definition removes the entries of its nodes,
counts them and leaves all others as they are. -/
theorem entries_owned_and_dropped_exactly {m : Model} {s : Cache} (h : m.Reachable s) :
    (∀ node entry, s.entryAt? node = some entry → m.doc.owner? node = some entry.owner) ∧
    (∀ request e, (exec (m.answer request) s).1 = .error e → e.isCacheFailure = false) ∧
    ∀ definition, m.doc.isDefinition definition = true →
      ∃ removed t, exec (drop definition) s = (.ok removed, t) ∧
        (∀ node, m.doc.Within definition node → t.entryAt? node = none) ∧
        (∀ node, ¬ m.doc.Within definition node → t.entryAt? node = s.entryAt? node) ∧
        ∃ nodes : List NodeId, nodes.Nodup ∧
          (∀ node, node ∈ nodes ↔
            m.doc.Within definition node ∧ (s.entryAt? node).isSome = true) ∧
          removed = nodes.length := by
  have hs := settled_of_reachable h
  refine ⟨fun node entry he => hs.owner_of_entry he, fun request e he => ?_,
    fun definition hd => ?_⟩
  · have hasks : request.Asks fun _ => True := by cases request <;> trivial
    have hend := (keeps_answer governs_all request hasks s hs).2.2
    rw [he] at hend
    exact hend.not_cacheFailure
  · exact ⟨_, _, exec_drop definition s, fun node => (hs.entryAt?_drop hd node).1,
      fun node => (hs.entryAt?_drop hd node).2, hs.removed_drop hd⟩

/-! ### A view on an entity -/

/-- A view with a column, the element of an entity. -/
def viewModel : Model :=
  ⟨.ofDefinitions [
    ("E", .object [("elements", .object [("a", .object [("type", .string "cds.String")])])]),
    ("V", .object [("query", .object [("SELECT", .object [
        ("from", .object [("ref", .array [.string "E"])]),
        ("columns", .array [.object [("ref", .array [.string "a"])]])])]),
      ("elements", .object [("a", .object [("type", .string "cds.String")])])])], {}⟩

/-- The column has been inspected. -/
def viewSession : Cache :=
  (exec (viewModel.answer (.inspect
    ⟨[.key "definitions", .key "V", .key "query", .key "SELECT", .key "columns", .index 0]⟩))
    Cache.empty).2

theorem reachable_viewSession : viewModel.Reachable viewSession :=
  .after _ trivial .new

theorem eq_ok_of_toOption {ε : Type} {x : Except ε α} {a : α} (h : x.toOption = some a) :
    x = .ok a := by
  cases x with
  | error e => cases h
  | ok b =>
    cases h
    rfl

/-- Dropping the view forgets its column and keeps the entity. -/
theorem viewSession_drops_view :
    viewModel.Reachable viewSession ∧ (viewSession.entryAt? 2).isSome = true ∧
    (viewSession.entryAt? 13).isSome = true ∧ viewModel.doc.owner? 13 = some 6 ∧
    ∃ removed t, exec (drop 6) viewSession = (.ok removed, t) ∧ t.entryAt? 13 = none ∧
      t.entryAt? 2 = viewSession.entryAt? 2 := by
  have hview : viewModel.doc.owner? 13 = some 6 := by decide +kernel
  have hentity : viewModel.doc.owner? 2 ≠ some 6 := by decide +kernel
  obtain ⟨_, _, hdrop⟩ := entries_owned_and_dropped_exactly reachable_viewSession
  obtain ⟨removed, t, hex, hin, hout, _⟩ := hdrop 6 (by decide +kernel)
  refine ⟨reachable_viewSession, by decide +kernel, by decide +kernel, hview, removed, t, hex,
    hin 13 (Document.owner?_eq_some_iff.mp hview).2, hout 2 fun hw => hentity ?_⟩
  exact owner?_of_within (by decide +kernel) hw

/-! ## Inspections -/

/-- A resolution that a session answers with is right by every theory of such sessions. -/
theorem Theory.Governs.resolves (hT : T.Governs P) (hs : m.ReachableBy P s) {path : Path}
    (hp : P path) {r : Resolution} (hr : (exec (m.inspect path) s).1 = .ok r) :
    T.Resolves path r := by
  have hend := (keeps_inspect hT hp s (settled_of_reachableBy hT hs)).2.2
  rwa [hr] at hend

/-- The assertion that has failed, if one has. -/
def assertion? {α : Type} : Except ResolveError α → Option Assertion
  | .error (.assertion cause) => some cause
  | _ => none

theorem eq_of_assertion? {x : Except ResolveError α} {cause : Assertion}
    (h : assertion? x = some cause) : x = .error (.assertion cause) := by
  unfold assertion? at h
  split at h
  · cases h
    rfl
  · cases h

end Model

end SchemaRefs
