import SchemaRefs.Proofs.ChainDocuments
import SchemaRefs.Proofs.Meanings

/-!
# Chains that are too long to be walked

A walk gives up after `maxChainLength` links and reports a cycle. Where a chain meets no structure
and ends, its nodes have its end as their effective type; a session finds it or reports a cycle
(`finds_lookups`). Which of the two happens depends on what the session remembers: a walk that comes
to a node whose effective type is known ends there.

* `overlong_chain_fails_unless_remembered`: if the document names the links of a chain that is too
  long, a cycle is reported just when the effective types of the nodes that a walk can reach are all
  unknown;
* `remembered_type_hides_overlong_chain`: so the answer to a request can change with the requests
  before it.
-/

namespace SchemaRefs

open CacheM

/-- The result is the given one, or a cycle is reported. -/
def FoundOrCircular {α : Type} (a : α) : Except ResolveError α → Prop
  | .ok b => b = a
  | .error e => ∃ error, e = .model error ∧ error.kind = .circularType

namespace Model

variable {m : Model} {s t : Cache} {n depth : Nat} {k : Lookups} {walk : ChainWalk}
  {marked : List NodeId} {steps : Nat} {current last node start : NodeId} {next : Option NodeId}
  {α : Type}

/-! ## What is known is found, or a cycle is reported -/

variable (m) in
/-- The lookups find all that is known at a stage, or report cycles. -/
structure FindsKnown (n depth : Nat) (k : Lookups) : Prop where
  inspect : ∀ path r s, m.IsCanonical path → m.meanings.Ready depth s →
    (m.stage n).resolution path = some r → FoundOrCircular r (exec (k.inspect path) s).1
  effectiveType : ∀ node type s, m.meanings.node node → m.meanings.Ready depth s →
    (m.doc.owner? node).isSome = true → (m.stage n).chainEnd node = some type →
    FoundOrCircular type (exec (k.effectiveType node) s).1

/-- What can be inferred at a stage is found, or a cycle is reported. -/
theorem FindsKnown.run (h : m.FindsKnown n depth k) (hk : m.meanings.Answers depth k)
    {x : Inquiry α} {post : α → Prop} {a : α} (hx : x.Meets m.meanings.contract post)
    (hi : x.infer m.doc (m.stage n) = some a) (hs : m.meanings.Ready depth s) :
    FoundOrCircular a (exec (x.run k) s).1 := by
  induction x generalizing s with
  | answer value => exact Option.some.inj hi
  | failure error => cases hi
  | inspect path next ih =>
    obtain ⟨r, hr, hnext⟩ := Option.bind_eq_some_iff.mp hi
    have hfound := h.inspect path r s hx.1 hs hr
    obtain ⟨hready, _, hend⟩ := hk.inspect path hx.1 s hs
    rw [Inquiry.run, exec_bind]
    rcases hex : exec (k.inspect path) s with ⟨e | r', t⟩
    · rw [hex] at hfound
      exact hfound
    · rw [hex] at hfound hready hend
      obtain rfl : r' = r := hfound
      exact ih r' (hx.2 r' hend) hnext hready
  | effectiveType node next ih =>
    rw [Inquiry.infer] at hi
    split at hi
    · next ho =>
      obtain ⟨type, htype, hnext⟩ := Option.bind_eq_some_iff.mp hi
      have hfound := h.effectiveType node type s hx.1 hs ho htype
      obtain ⟨hready, _, hend⟩ := hk.effectiveType node hx.1 s hs
      rw [Inquiry.run, exec_bind]
      rcases hex : exec (k.effectiveType node) s with ⟨e | type', t⟩
      · rw [hex] at hfound
        exact hfound
      · rw [hex] at hfound hready hend
        obtain rfl : type' = type := hfound
        exact ih type' (hx.2 type' hend) hnext hready
    · cases hi

theorem foundOrCircular_annotate {a : α} {site : Site} {result : Except ResolveError α}
    (h : FoundOrCircular a result) : FoundOrCircular a (result.mapError (m.annotate site)) := by
  cases result with
  | ok b => exact h
  | error e =>
    obtain ⟨error, rfl, hkind⟩ := h
    exact ⟨_, rfl, hkind⟩

theorem found_inspectWith (hn : m.FindsKnown n depth k) (hk : m.meanings.Answers depth k)
    {path : Path} {r : Resolution} (hp : m.IsCanonical path) (hs : m.meanings.Ready (depth + 1) s)
    (hr : (m.stage (n + 1)).resolution path = some r) :
    FoundOrCircular r (exec (m.inspectWith k path) s).1 := by
  have hby := hr
  rw [stage_resolution, resolutionBy] at hby
  split at hby
  · next topology site hsite =>
    obtain ⟨t, _, hex, ht, hst, _⟩ := exec_inspectWith_ok k hs.agrees.orderly hsite
    have hagree : m.meanings.Agrees t := hs.agrees.steady ht hst
    have hready : m.meanings.Ready (depth + 1) t := ⟨hagree, (Extends.steady hst).room_eq ▸ hs.room⟩
    rw [hex]
    cases hget : t.get? .resolution site.holder with
    | some r' =>
      have hdenotes := denotes_of_resolves hp ⟨topology, site, hsite, hagree.kept _ _ hget⟩
      rw [exec_inspectSite, hget]
      exact hdenotes.unique ⟨n + 1, hr⟩
    | none =>
      by_cases hfree : site.holder ∈ t.resolving
      · rw [exec_inspectSite, hget]
        dsimp only
        rw [if_pos hfree]
        exact ⟨_, rfl, rfl⟩
      · obtain ⟨u, hu, _⟩ :=
          Theory.exec_inspectSite_new lawful_meanings hk hp hsite hready hget hfree
        rw [hu]
        exact foundOrCircular_annotate (hn.run hk
          (lawful_meanings.site path topology site hp hsite) hby (hready.begun hsite hfree))
  · cases hby

/-! ## Walks -/

variable (m) in
/-- A walk along a chain whose end is known at a stage gets there, or reports a cycle. -/
def WalksFind (n depth : Nat) (k : Lookups) : Prop :=
  ∀ start steps current marked s t walk type, ChainRun m k start steps current marked s walk t →
    m.meanings.node current → m.meanings.Ready (depth + 1) s →
    (m.stage n).chainEnd current = some type → FoundOrCircular type walk.outcome

theorem walksFind_succ (hn : m.FindsKnown n depth k) (hk : m.meanings.Answers depth k)
    (hrest : m.WalksFind n depth k) : m.WalksFind (n + 1) depth k := by
  intro start steps current marked s t walk type hrun hnode hs hend
  -- what the link of a marked node comes to
  have hlinks : ∀ {u v result}, s.get? .effectiveType current = none →
      m.doc.hasStructure current = false → exec (m.markChain current) s = (.ok (), u) →
      exec ((m.chainLink current).run k) u = (result, v) →
      ∃ link, FoundOrCircular link result ∧ m.meanings.Ready (depth + 1) v ∧
        Ends m.meanings.Fails (m.meanings.Links current) result ∧
        (link = none ∧ type = current ∨
          ∃ next, link = some next ∧ (m.stage n).chainEnd next = some type) := by
    intro u v result hnone hstruct hmark hlink
    obtain ⟨ho, hknown⟩ := chainEnd_cases hstruct hend
    obtain ⟨_, _, _, hready, hafter⟩ :=
      Theory.link_cases lawful_meanings hk hnode hs hnone hstruct hmark
    obtain ⟨hready', _, hends⟩ := hafter _ _ hlink
    have hmeets := lawful_meanings.link current hnode ho hstruct
    rcases hknown with ⟨hi, heq⟩ | ⟨next, hi, hnext⟩
    · have hfound := hn.run hk hmeets hi hready
      rw [hlink] at hfound
      exact ⟨none, hfound, hready', hends, .inl ⟨rfl, heq⟩⟩
    · have hfound := hn.run hk hmeets hi hready
      rw [hlink] at hfound
      exact ⟨some next, hfound, hready', hends, .inr ⟨next, rfl, hnext⟩⟩
  cases hrun with
  | known hdone => exact (hs.agrees.typed _ _ hdone).2.unique ⟨n + 1, hend⟩
  | circular => exact ⟨_, rfl, rfl⟩
  | exhausted => exact ⟨_, rfl, rfl⟩
  | structured _ hstruct => exact (chainEnds_structured hstruct).unique ⟨n + 1, hend⟩
  | unmarkable hnone hstruct hmark =>
    obtain ⟨ho, _⟩ := chainEnd_cases hstruct hend
    rw [(outside_of_markChain hs.agrees.orderly hnone hmark).1] at ho
    cases ho
  | broken hnone hstruct hmark hlink =>
    obtain ⟨_, hfound, _⟩ := hlinks hnone hstruct hmark hlink
    exact hfound
  | ended hnone hstruct hmark hlink =>
    obtain ⟨_, rfl, _, _, ⟨_, heq⟩ | ⟨_, heq, _⟩⟩ := hlinks hnone hstruct hmark hlink
    · exact heq.symm
    · cases heq
  | link hnone hstruct hmark hlink hrun =>
    obtain ⟨_, rfl, hready, hends, ⟨heq, _⟩ | ⟨_, heq, hnext⟩⟩ := hlinks hnone hstruct hmark hlink
    · cases heq
    · cases heq
      exact hrest _ _ _ _ _ _ _ _ hrun hends.1 hready hnext

theorem found_effectiveTypeWith (hk : m.meanings.Answers depth k) (hwalk : m.WalksFind n depth k)
    {type : NodeId} (hnode : m.meanings.node node) (hs : m.meanings.Ready (depth + 1) s)
    (ho : (m.doc.owner? node).isSome = true) (hend : (m.stage n).chainEnd node = some type) :
    FoundOrCircular type (exec (m.effectiveTypeWith k node) s).1 := by
  rcases hstate : s.get? .effectiveType node with _ | _ | type'
  · obtain ⟨walk, t, u, hrun, hex, _⟩ :=
      Theory.exec_effectiveTypeWith_new lawful_meanings hk hnode hs ho hstate
    have hcount := Extends.count s countWalk
    rw [hex]
    exact hwalk _ _ _ _ _ _ _ _ hrun hnode ⟨hs.agrees.count _, hcount.room_eq ▸ hs.room⟩ hend
  · rw [exec_effectiveTypeWith_circular hstate]
    exact ⟨_, rfl, rfl⟩
  · rw [exec_effectiveTypeWith_known hstate]
    exact (hs.agrees.typed _ _ hstate).2.unique ⟨n, hend⟩

/-- Lookups find all that is known, or report cycles, however long the chains are. -/
theorem finds_lookups (n depth : Nat) :
    m.FindsKnown n depth (m.lookups depth) ∧ m.WalksFind n depth (m.lookups depth) := by
  induction n generalizing depth with
  | zero =>
    refine ⟨⟨fun path r s _ _ hr => ?_, fun node type s _ _ _ ht => ?_⟩, ?_⟩
    · cases hr
    · cases ht
    · intro _ _ _ _ _ _ _ _ _ _ _ hend
      cases hend
  | succ n ih =>
    have hanswers := fun depth => Theory.answers_lookups (lawful_meanings (m := m)) depth
    have hwalks : ∀ depth, m.WalksFind (n + 1) depth (m.lookups depth) := fun depth =>
      walksFind_succ (ih depth).1 (hanswers depth) (ih depth).2
    refine ⟨⟨fun path r s hp hs hr => ?_, fun node type s hnode hs ho hend => ?_⟩, hwalks depth⟩
    · cases depth with
      | zero => exact absurd hs.room (Nat.not_lt_zero _)
      | succ depth => exact found_inspectWith (ih depth).1 (hanswers depth) hp hs hr
    · cases depth with
      | zero => exact absurd hs.room (Nat.not_lt_zero _)
      | succ depth => exact found_effectiveTypeWith (hanswers depth) (hwalks depth) hnode hs ho hend

/-! ## Chains that end -/

variable (m) in
/-- What the type of a node denotes, or else its origin, as far as it can be found out without a
cache. -/
def LinksTo (node : NodeId) (next : Option NodeId) : Prop :=
  ∃ n, (m.chainLink node).infer m.doc (m.stage n) = some next

theorem LinksTo.unique {next' : Option NodeId} (h : m.LinksTo node next)
    (h' : m.LinksTo node next') : next = next' :=
  Infers.unique h h'

variable (m) in
/-- The document itself names the link of a node; nothing has to be looked up. -/
def IsPlain (node : NodeId) : Prop :=
  ∃ next, m.chainLink node = .answer next

theorem LinksTo.chainLink_eq (h : m.LinksTo node next)
    (hplain : m.IsPlain node) : m.chainLink node = .answer next := by
  obtain ⟨next', hlink⟩ := hplain
  have h' : m.LinksTo node next' := ⟨0, by rw [hlink]; rfl⟩
  rw [hlink, h.unique h']

variable (m) in
/-- A chain of types of `length` links, all of whose nodes belong to definitions and none of which
declares structure. -/
structure TypeChain (length : Nat) (chain : Nat → NodeId) : Prop where
  owned : ∀ i ≤ length, (m.doc.owner? (chain i)).isSome = true
  unstructured : ∀ i ≤ length, m.doc.hasStructure (chain i) = false
  link : ∀ i < length, m.LinksTo (chain i) (some (chain (i + 1)))
  last : m.LinksTo (chain length) none

variable (m) in
/-- A chain of types of `length` links that ends: its last node declares structure, and is the only
one to do so, or has no link. -/
structure FiniteChain (length : Nat) (chain : Nat → NodeId) : Prop where
  owned : ∀ i ≤ length, (m.doc.owner? (chain i)).isSome = true
  unstructured : ∀ i < length, m.doc.hasStructure (chain i) = false
  link : ∀ i < length, m.LinksTo (chain i) (some (chain (i + 1)))
  last : m.doc.hasStructure (chain length) = true ∨ m.LinksTo (chain length) none

theorem TypeChain.finite {length : Nat} {chain : Nat → NodeId} (h : m.TypeChain length chain) :
    m.FiniteChain length chain :=
  ⟨h.owned, fun i hi => h.unstructured i (Nat.le_of_lt hi), h.link, .inr h.last⟩

namespace FiniteChain

variable {length : Nat} {chain : Nat → NodeId}

/-- A chain that ends does not come back to a node. -/
theorem ne_of_lt (h : m.FiniteChain length chain) {i j : Nat} (hij : i < j) (hj : j ≤ length) :
    chain i ≠ chain j := by
  intro heq
  -- from equal nodes the chain goes on alike, so it would go on after its end
  have hshift : ∀ d, j + d ≤ length → chain (i + d) = chain (j + d) := by
    intro d
    induction d with
    | zero => exact fun _ => heq
    | succ d ih =>
      intro hd
      have hnext := h.link (i + d) (by omega)
      rw [ih (by omega)] at hnext
      exact Option.some.inj (hnext.unique (h.link (j + d) (by omega)))
  have hend := hshift (length - j) (by omega)
  rw [Nat.add_sub_of_le hj] at hend
  rcases h.last with hstruct | hnone
  · have hplain := h.unstructured (i + (length - j)) (by omega)
    rw [hend, hstruct] at hplain
    cases hplain
  · have hlink := h.link (i + (length - j)) (by omega)
    rw [hend] at hlink
    cases hlink.unique hnone

/-- All nodes of a chain have its last one as their end. -/
theorem chainEnds (h : m.FiniteChain length chain) {i : Nat} (hi : i ≤ length) :
    m.ChainEnds (chain i) (chain length) := by
  induction hrest : length - i generalizing i with
  | zero =>
    obtain rfl : i = length := by omega
    cases hstruct : m.doc.hasStructure (chain i) with
    | true => exact chainEnds_structured hstruct
    | false =>
      obtain ⟨n, hn⟩ := h.last.resolve_left (by rw [hstruct]; exact Bool.false_ne_true)
      exact chainEnds_ended (h.owned _ hi) hstruct hn
  | succ rest ih =>
    obtain ⟨n, hn⟩ := h.link i (by omega)
    exact chainEnds_link (h.owned _ hi) (h.unstructured _ (by omega)) hn (ih (by omega) (by omega))

end FiniteChain

/-! ## Chains that the document names -/

variable (m) in
/-- The chain of a node, as far as the document names it, meets no structure and ends. -/
inductive PlainEnds : NodeId → NodeId → Prop where
  | last {node : NodeId} : m.doc.hasStructure node = false → m.chainLink node = .answer none →
      PlainEnds node node
  | link {node next last : NodeId} : m.doc.hasStructure node = false →
      m.chainLink node = .answer (some next) → PlainEnds next last → PlainEnds node last

theorem PlainEnds.isPlain (h : m.PlainEnds node last) : m.IsPlain node := by
  cases h with
  | last _ hlink | link _ hlink => exact ⟨_, hlink⟩

theorem PlainEnds.eq_of_chainLink (h : m.PlainEnds node last)
    (hlink : m.chainLink node = .answer none) : node = last := by
  cases h with
  | last => rfl
  | link _ hlink' =>
    rw [hlink] at hlink'
    cases hlink'

theorem PlainEnds.of_chainLink {next : NodeId} (h : m.PlainEnds node last)
    (hlink : m.chainLink node = .answer (some next)) : m.PlainEnds next last := by
  cases h with
  | last _ hlink' =>
    rw [hlink] at hlink'
    cases hlink'
  | link _ hlink' hrest =>
    rw [hlink] at hlink'
    cases hlink'
    exact hrest

variable (m) in
/-- What the rules say, and that a chain that the document names has its end as effective type.
Unlike the meanings of references, this holds whatever paths are inspected. -/
def plainMeanings : Theory m :=
  { m.rules fun _ => True with
    typed := fun node type => (m.rules fun _ => True).typed node type ∧
      ∀ last, m.PlainEnds node last → type = last }

theorem meets_plainMeanings {x : Inquiry α} {post : α → Prop}
    (hx : x.Meets (m.rules fun _ => True).contract post) :
    x.Meets m.plainMeanings.contract post := by
  refine hx.mono (fun _ h => h) (fun _ h => h) (fun _ _ _ h => h) (fun _ _ _ h => ⟨h.1, h.2.1⟩)
    (fun e he => ?_) fun _ h => h
  cases e with
  | model error => trivial
  | assertion cause => exact he

theorem lawful_plainMeanings : m.plainMeanings.Lawful := by
  have hrules : (m.rules fun _ => True).Lawful := governs_all.refines.lawful
  refine ⟨fun path topology site hp hsite => meets_plainMeanings
    (hrules.site path topology site hp hsite),
    fun node hn hs => ⟨hrules.structured node hn hs, fun last hlast => ?_⟩, fun node hn ho hs => ?_,
    hrules.outside⟩
  · cases hlast with
    | last => rfl
    | link hs' =>
      rw [hs] at hs'
      cases hs'
  · have hmeets := hrules.link node hn ho hs
    by_cases hplain : m.IsPlain node
    · obtain ⟨next, hlink⟩ := hplain
      rw [hlink] at hmeets ⊢
      cases next with
      | none => exact ⟨hmeets, fun last hlast => hlast.eq_of_chainLink hlink⟩
      | some next =>
        exact ⟨hmeets.1, fun type htype => ⟨hmeets.2 type htype.1, fun last hlast =>
          htype.2 last (hlast.of_chainLink hlink)⟩⟩
    · -- nothing is said about the ends of other nodes
      refine (meets_plainMeanings hmeets).weaken fun next hnext => ?_
      cases next with
      | none => exact ⟨hnext, fun last hlast => absurd hlast.isPlain hplain⟩
      | some next =>
        exact ⟨hnext.1, fun type htype => ⟨hnext.2 type htype.1, fun last hlast =>
          absurd hlast.isPlain hplain⟩⟩

theorem governs_plainMeanings : m.plainMeanings.Governs fun _ => True :=
  ⟨governs_all.closed, lawful_plainMeanings, fun _ h => h, fun _ h => h, fun _ _ h => h,
    fun _ _ h => h.1,
    fun _ => .rfl⟩

/-! ## Walks along chains that the document names -/

/-- In a session, the effective type of a node that has none yet is looked up by a walk, and
kept. -/
theorem exec_effectiveType_new {T : Theory m} {P : Path → Prop} (hT : T.Governs P)
    (hs : T.Settled s) (howned : m.IsOwned node) (hnone : s.get? .effectiveType node = none) :
    ∃ walk t u, ChainRun m (m.lookups (2 * m.doc.size + 1)) node maxChainLength node []
      (s.count countWalk)
        walk t ∧
      exec (m.effectiveType node) s = (walk.outcome, u) ∧
      ∀ type, walk.outcome = .ok type → u.get? .effectiveType node = some (.done type) := by
  have hlawful := hT.refines.lawful
  obtain ⟨walk, t, u, hrun, hex, _, _, hends⟩ := Theory.exec_effectiveTypeWith_new hlawful
    (Theory.answers_lookups hlawful (2 * m.doc.size + 1)) (hT.refines.node node (.inl howned))
    ⟨hs.agrees, room_le s⟩ howned hnone
  refine ⟨walk, t, u, hrun, hex, fun type hout => ?_⟩
  rw [hout] at hends
  exact hends

theorem ChainRun.outcome_of_known {type : NodeId}
    (hrun : ChainRun m k start steps current marked s walk t)
    (hknown : s.get? .effectiveType current = some (.done type)) : walk.outcome = .ok type := by
  cases hrun with
  | known hdone =>
    rw [hknown] at hdone
    cases hdone
    rfl
  | circular hn | exhausted hn | structured hn | unmarkable hn | broken hn | ended hn | link hn =>
    rw [hknown] at hn
    cases hn

/-- A walk marks an unknown node of such a chain. It ends there, or follows the link. -/
theorem ChainRun.plain_cases (hrun : ChainRun m k start (steps + 1) current marked s walk t)
    (hs : Orderly m s) (hnone : s.get? .effectiveType current = none)
    (ho : (m.doc.owner? current).isSome = true) (hstruct : m.doc.hasStructure current = false)
    (hnext : m.chainLink current = .answer next) :
    next = none ∧ walk.outcome = .ok current ∨
    ∃ following owner u, next = some following ∧
    s.Stored .effectiveType owner current .inProgress u ∧
      Orderly m u ∧ ChainRun m k start steps following (marked ++ [current]) u walk t := by
  have hasked : ∀ u, exec ((m.chainLink current).run k) u = (.ok next, u) := by
    intro u
    rw [hnext]
    rfl
  obtain ⟨owner, u, _, hmark, hst, hu⟩ := (markChain_cases hs hnone).resolve_right fun hfails => by
    rw [hfails.1] at ho
    cases ho
  cases hrun with
  | known hknown | circular hknown =>
    rw [hnone] at hknown
    cases hknown
  | structured _ hstruct' =>
    rw [hstruct] at hstruct'
    cases hstruct'
  | unmarkable _ _ hmark' =>
    rw [hmark] at hmark'
    cases hmark'
  | broken _ _ _ hlink =>
    rw [hasked] at hlink
    cases hlink
  | ended _ _ _ hlink =>
    rw [hasked] at hlink
    cases hlink
    exact .inl ⟨rfl, rfl⟩
  | link _ _ hmark' hlink hrest =>
    rw [hasked] at hlink
    cases hlink
    rw [hmark] at hmark'
    cases hmark'
    exact .inr ⟨_, owner, u, rfl, hst, hu, hrest⟩

theorem ChainRun.outcome_of_structured
    (hrun : ChainRun m k start (steps + 1) current marked s walk t)
    (hnone : s.get? .effectiveType current = none) (hstruct : m.doc.hasStructure current = true) :
    walk.outcome = .ok current := by
  cases hrun with
  | known hknown | circular hknown =>
    rw [hnone] at hknown
    cases hknown
  | structured => rfl
  | unmarkable _ hplain | broken _ hplain | ended _ hplain | link _ hplain =>
    cases hstruct.symm.trans hplain

namespace FiniteChain

variable {length : Nat} {chain : Nat → NodeId} (hchain : m.FiniteChain length chain)
  (hplain : ∀ i ≤ length, m.doc.hasStructure (chain i) = false → m.IsPlain (chain i))
  {walk : ChainWalk} {marked : List NodeId} {i steps : Nat} {start : NodeId}
include hchain hplain

theorem chainLink_eq (hi : i < length) : m.chainLink (chain i) = .answer (some (chain (i + 1))) :=
  (hchain.link i hi).chainLink_eq (hplain i (Nat.le_of_lt hi) (hchain.unstructured i hi))

theorem chainRun_next (hi : i < length) (hs : Orderly m s)
    (hnone : s.get? .effectiveType (chain i) = none)
    (hrun : ChainRun m k start (steps + 1) (chain i) marked s walk t) :
    ∃ u, ChainRun m k start steps (chain (i + 1)) (marked ++ [chain i]) u walk t ∧ Orderly m u ∧
      ∀ j, i < j → j ≤ length →
        u.get? .effectiveType (chain j) = s.get? .effectiveType (chain j) := by
  rcases hrun.plain_cases hs hnone (hchain.owned i (Nat.le_of_lt hi)) (hchain.unstructured i hi)
      (hchain.chainLink_eq hplain hi) with ⟨hnext, _⟩ | ⟨_, _, u, hnext, hst, hu, hrest⟩
  · cases hnext
  · cases hnext
    exact ⟨u, hrest, hu, fun j hij hj => hst.get?_of_ne (.inl (hchain.ne_of_lt hij hj).symm)⟩

theorem outcome_last (hs : Orderly m s) (hnone : s.get? .effectiveType (chain length) = none)
    (hrun : ChainRun m k start (steps + 1) (chain length) marked s walk t) :
    walk.outcome = .ok (chain length) := by
  cases hstruct : m.doc.hasStructure (chain length) with
  | true => exact hrun.outcome_of_structured hnone hstruct
  | false =>
    have hend := hchain.last.resolve_left (by rw [hstruct]; exact Bool.false_ne_true)
    have hlink := hend.chainLink_eq (hplain length (Nat.le_refl _) hstruct)
    rcases hrun.plain_cases hs hnone (hchain.owned length (Nat.le_refl _)) hstruct hlink with
      ⟨_, hout⟩ | ⟨_, _, _, hnext, _⟩
    · exact hout
    · cases hnext

/-- A walk that comes to no known node gives up. -/
theorem outcome_exhausted (hle : i + steps ≤ length) (hs : Orderly m s)
    (hnone : ∀ j, i ≤ j → j ≤ i + steps → s.get? .effectiveType (chain j) = none)
    (hrun : ChainRun m k start steps (chain i) marked s walk t) :
    walk.outcome = .error (.model (m.circularAt start)) := by
  induction steps generalizing i marked s with
  | zero =>
    have hhere := hnone i (Nat.le_refl i) (Nat.le_refl i)
    cases hrun with
    | known hknown | circular hknown =>
      rw [hhere] at hknown
      cases hknown
    | exhausted => rfl
  | succ steps ih =>
    obtain ⟨u, hrest, hu, hsame⟩ := hchain.chainRun_next hplain (by omega) hs
      (hnone i (Nat.le_refl i) (Nat.le_add_right i _)) hrun
    refine ih (by omega) hu (fun j hij hj => ?_) hrest
    rw [hsame j hij (by omega)]
    exact hnone j (by omega) (by omega)

/-- A walk finds the end of the chain if it can reach the end or a known node. -/
theorem outcome_found (hi : i ≤ length) (hs : Orderly m s)
    (hstates : ∀ j, i ≤ j → j ≤ length → s.get? .effectiveType (chain j) = none ∨
      s.get? .effectiveType (chain j) = some (.done (chain length)))
    (hreach : length < i + steps ∨ ∃ j, i ≤ j ∧ j ≤ length ∧ j ≤ i + steps ∧
      s.get? .effectiveType (chain j) ≠ none)
    (hrun : ChainRun m k start steps (chain i) marked s walk t) :
    walk.outcome = .ok (chain length) := by
  induction steps generalizing i marked s with
  | zero =>
    rcases hreach with hend | ⟨j, hij, hj, hsteps, hknown⟩
    · omega
    · obtain rfl : j = i := by omega
      exact hrun.outcome_of_known ((hstates j hij hj).resolve_left hknown)
  | succ steps ih =>
    rcases hstates i (Nat.le_refl i) hi with hnone | hdone
    · rcases Nat.lt_or_eq_of_le hi with hlt | rfl
      · obtain ⟨u, hrest, hu, hsame⟩ := hchain.chainRun_next hplain hlt hs hnone hrun
        refine ih hlt hu (fun j hij hj => ?_) ?_ hrest
        · rw [hsame j hij hj]
          exact hstates j (Nat.le_of_lt hij) hj
        · rcases hreach with hend | ⟨j, hij, hj, hsteps, hknown⟩
          · exact .inl (by omega)
          · have hne : i ≠ j := by
              rintro rfl
              exact hknown hnone
            have hij' : i < j := Nat.lt_of_le_of_ne hij hne
            exact .inr ⟨j, hij', hj, by omega, by rw [hsame j hij' hj]; exact hknown⟩
      · exact hchain.outcome_last hplain hs hnone hrun
    · exact hrun.outcome_of_known hdone

/-! ## Questions along chains that the document names -/

section

variable {T : Theory m} (hT : T.Lawful) (hk : T.Answers depth k)
  (hs : T.Ready (depth + 1) s) {i : Nat} (hnode : T.node (chain i))
include hT hk hs hnode

theorem circular_of_unknown (hi : i + maxChainLength ≤ length)
    (hnone : ∀ j, i ≤ j → j ≤ i + maxChainLength → s.get? .effectiveType (chain j) = none) :
    (exec (m.effectiveTypeWith k (chain i)) s).1 = .error (.model (m.circularAt (chain i))) := by
  obtain ⟨walk, t, u, hrun, hex, _⟩ := Theory.exec_effectiveTypeWith_new hT hk hnode hs
    (hchain.owned i (Nat.le_trans (Nat.le_add_right i _) hi))
      (hnone i (Nat.le_refl i) (Nat.le_add_right i _))
  rw [hex]
  exact hchain.outcome_exhausted hplain hi (hs.agrees.orderly.count _) hnone hrun

/-- The effective type of a node is found, and known from then on, if the end of the chain or a
known node is near enough. -/
theorem found_of_reach (hi : i ≤ length)
    (hstates : ∀ j, j ≤ length → s.get? .effectiveType (chain j) = none ∨
      s.get? .effectiveType (chain j) = some (.done (chain length)))
    (hreach : length < i + maxChainLength ∨
      ∃ j, i ≤ j ∧ j ≤ length ∧ j ≤ i + maxChainLength ∧ s.get? .effectiveType (chain j) ≠ none) :
    ∃ t, exec (m.effectiveTypeWith k (chain i)) s = (.ok (chain length), t) ∧
      t.get? .effectiveType (chain i) = some (.done (chain length)) := by
  rcases hstates i hi with hnone | hdone
  · obtain ⟨walk, t, u, hrun, hex, _, _, hends⟩ :=
      Theory.exec_effectiveTypeWith_new hT hk hnode hs (hchain.owned i hi) hnone
    have hout := hchain.outcome_found hplain hi (hs.agrees.orderly.count _)
      (fun j _ hj => hstates j hj) hreach hrun
    rw [hout] at hends
    exact ⟨u, by rw [hex, hout], hends⟩
  · exact ⟨s, exec_effectiveTypeWith_known hdone, hdone⟩

end

end FiniteChain

/-! ## Requests along chains without structure -/

namespace TypeChain

variable {length : Nat} {chain : Nat → NodeId} (hchain : m.TypeChain length chain)
  (hplain : ∀ i ≤ length, m.IsPlain (chain i)) {i : Nat}
include hchain hplain

theorem plainEnds (hi : i ≤ length) : m.PlainEnds (chain i) (chain length) := by
  induction hrest : length - i generalizing i with
  | zero =>
    obtain rfl : i = length := by omega
    exact .last (hchain.unstructured _ hi) (hchain.last.chainLink_eq (hplain _ hi))
  | succ rest ih =>
    exact .link (hchain.unstructured _ hi) ((hchain.link i (by omega)).chainLink_eq (hplain _ hi))
      (ih (by omega) (by omega))

theorem type_cases (hs : m.plainMeanings.Settled s) (hi : i ≤ length) :
    s.get? .effectiveType (chain i) = none ∨
      s.get? .effectiveType (chain i) = some (.done (chain length)) := by
  rcases hstate : s.get? .effectiveType (chain i) with _ | _ | type
  · exact .inl rfl
  · exact absurd hstate (hs.unmarked _)
  · rw [(hs.agrees.typed _ _ hstate).2 _ (hchain.plainEnds hplain hi)]
    exact .inr rfl

/-- A session reports a cycle if a walk can come to no known node. -/
theorem request_fails (hs : m.plainMeanings.Settled s) (hlong : maxChainLength ≤ length)
    (hnone : ∀ i ≤ maxChainLength, s.get? .effectiveType (chain i) = none) :
    (exec (m.effectiveType (chain 0)) s).1 = .error (.model (m.circularAt (chain 0))) :=
  hchain.finite.circular_of_unknown (fun i hi _ => hplain i hi) lawful_plainMeanings
    (Theory.answers_lookups lawful_plainMeanings (2 * m.doc.size + 1)) ⟨hs.agrees, room_le s⟩
    (.inl (hchain.owned 0 (Nat.zero_le _))) (by omega) fun _ _ hj => hnone _ (by omega)

/-- A session finds the effective type of a node if the end of the chain or a known node is near
enough. -/
theorem request_found (hs : m.plainMeanings.Settled s) (hi : i ≤ length)
    (hreach : length < i + maxChainLength ∨
      ∃ j, i ≤ j ∧ j ≤ length ∧ j ≤ i + maxChainLength ∧ s.get? .effectiveType (chain j) ≠ none) :
    ∃ t, exec (m.effectiveType (chain i)) s = (.ok (chain length), t) ∧
      t.get? .effectiveType (chain i) = some (.done (chain length)) :=
  hchain.finite.found_of_reach (fun i hi _ => hplain i hi) lawful_plainMeanings
    (Theory.answers_lookups lawful_plainMeanings (2 * m.doc.size + 1)) ⟨hs.agrees, room_le s⟩
    (.inl (hchain.owned i hi)) hi (fun _ hj => hchain.type_cases hplain hs hj) hreach

end TypeChain

/-- A session that asks for the effective type of a node whose chain meets no structure, but is too
long for a walk, finds the end of the chain, or a cycle is reported, if the session inspects only
canonical paths. Whatever it inspects, if the document names the links of the chain, a cycle is
reported if none of the nodes that a walk can reach has a known effective type, and the end of the
chain is found if one of them has. -/
theorem overlong_chain_fails_unless_remembered {m : Model} {s : Cache} (h : m.Reachable s)
    {length : Nat} {chain : Nat → NodeId} (hchain : m.TypeChain length chain)
    (hlong : maxChainLength ≤ length) :
    (m.ReachableBy m.IsCanonical s →
      FoundOrCircular (chain length) (exec (m.effectiveType (chain 0)) s).1) ∧
    ((∀ i ≤ length, m.IsPlain (chain i)) →
      ((∀ i ≤ maxChainLength, s.get? .effectiveType (chain i) = none) →
        (exec (m.effectiveType (chain 0)) s).1 = .error (.model (m.circularAt (chain 0)))) ∧
      ((∃ i ≤ maxChainLength, s.get? .effectiveType (chain i) ≠ none) →
        (exec (m.effectiveType (chain 0)) s).1 = .ok (chain length))) := by
  refine ⟨fun hcanonical => ?_, fun hplain => ?_⟩
  · have hs := settled_of_reachableBy governs_meanings hcanonical
    have howned := hchain.owned 0 (Nat.zero_le _)
    obtain ⟨n, hn⟩ := hchain.finite.chainEnds (Nat.zero_le _)
    exact (finds_lookups n m.nesting).1.effectiveType _ _ s (.inl howned)
      ⟨hs.agrees, room_le s⟩ howned hn
  · have hs := settled_of_reachableBy governs_plainMeanings h
    refine ⟨fun hnone => ?_, fun hknown => ?_⟩
    · exact hchain.request_fails hplain hs hlong hnone
    · obtain ⟨i, hi, hknown⟩ := hknown
      obtain ⟨t, hex, _⟩ := hchain.request_found hplain hs (Nat.zero_le _)
        (.inr ⟨i, Nat.zero_le i, by omega, by omega, hknown⟩)
      rw [hex]

/-! ### Documents with such chains -/

theorem isPlain_chainNode (length : Nat) :
    ∀ i ≤ length, (chainModel (length + 1)).IsPlain (chainNode i) :=
  fun _ hi => ⟨_, chainLink_chainNode (Nat.lt_succ_of_le hi)⟩

theorem typeChain_chainModel (length : Nat) :
    (chainModel (length + 1)).TypeChain length chainNode := by
  refine ⟨fun i hi => ?_, fun i hi => holdsChain_chainModel.hasStructure_eq (by omega),
    fun i hi => ⟨0, ?_⟩, ⟨0, ?_⟩⟩
  · rw [holdsChain_chainModel.owner?_eq (by omega)]
    rfl
  · rw [chainLink_chainNode (by omega), if_pos (by omega)]
    rfl
  · rw [chainLink_chainNode (by omega), if_neg (by omega)]
    rfl

/-- A new session reports a cycle for the first definition of a chain that is too long. -/
theorem chainModel_fails_in_new_session :
    (exec ((chainModel (maxChainLength + 2)).effectiveType (chainNode 0)) Cache.empty).1 =
      .error (.model ((chainModel (maxChainLength + 2)).circularAt (chainNode 0))) := by
  obtain ⟨_, hnamed⟩ := overlong_chain_fails_unless_remembered .new
    (typeChain_chainModel (maxChainLength + 1)) (Nat.le_succ _)
  exact (hnamed (isPlain_chainNode (maxChainLength + 1))).1 fun i _ => by simp

/-- If the session has been asked for the third definition before, from where the chain is short
enough, the first one has an effective type. -/
theorem remembered_type_hides_overlong_chain :
    (chainModel (maxChainLength + 2)).TypeChain (maxChainLength + 1) chainNode ∧
    (exec ((chainModel (maxChainLength + 2)).effectiveType (chainNode 0)) Cache.empty).1 =
      .error (.model ((chainModel (maxChainLength + 2)).circularAt (chainNode 0))) ∧
    ∃ s, (chainModel (maxChainLength + 2)).Reachable s ∧
      (exec ((chainModel (maxChainLength + 2)).effectiveType (chainNode 0)) s).1 =
        .ok (chainNode (maxChainLength + 1)) := by
  have hchain := typeChain_chainModel (maxChainLength + 1)
  have hplain := isPlain_chainNode (maxChainLength + 1)
  obtain ⟨s, hex, hknown⟩ := hchain.request_found hplain settled_empty (i := 2)
    (by decide) (.inl (by omega))
  have hreach : (chainModel (maxChainLength + 2)).Reachable s :=
    Reachable.answered .new (.effectiveType (chainNode 2)) hex
  have hsome : s.get? .effectiveType (chainNode 2) ≠ none := by
    rw [hknown]
    exact Option.some_ne_none _
  obtain ⟨t, hex', _⟩ := hchain.request_found hplain
    (settled_of_reachableBy governs_plainMeanings hreach)
    (Nat.zero_le _) (.inr ⟨2, Nat.zero_le 2, by decide, by decide, hsome⟩)
  exact ⟨hchain, hchain.request_fails hplain settled_empty (by omega) fun i _ => by simp,
    s, hreach, by rw [hex']⟩

end Model

end SchemaRefs
