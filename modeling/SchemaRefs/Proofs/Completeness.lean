import Mathlib.Data.List.Chain
import Mathlib.Data.List.Perm.Subperm
import SchemaRefs.Proofs.Meanings

/-!
# Sessions find what is known

A lookup marks the nodes of the chain that it walks and enters the holders that it resolves. It
fails when it comes back to one of them, so in the middle of a lookup a session may fail to answer
what it would answer otherwise. It does not, as long as nothing that is being looked up is known at
the stage of the question (`Clear`): whatever the question depends on is known at an earlier stage.

* `Yields`: all that is known at a stage is found;
* `yields_lookups`: lookups find all that is known, in every cache that agrees with the meanings, if
  chains are short enough to be walked (`ShortChains`).
-/

namespace SchemaRefs

open CacheM

namespace Model

variable {m : Model} {s t : Cache} {k : Lookups} {depth n : Nat} {node : NodeId}

/-! ## Short chains -/

variable (m) in
/-- In a new session, the second node is the link of the first one in its chain of types. -/
def Leads (node next : NodeId) : Prop :=
  (exec ((m.chainLink node).run m.ask) Cache.empty).1 = .ok (some next)

variable (m) in
/-- Every sequence of distinct nodes along a chain of types is shorter than the longest one that is
walked. -/
def ShortChains : Prop :=
  ∀ nodes : List NodeId, nodes.Nodup → nodes.IsChain m.Leads → nodes.length < maxChainLength

theorem lt_size_of_leads {next : NodeId} (h : m.Leads node next) : node < m.doc.size := by
  by_contra hle
  have hprop : ∀ key, m.doc.prop? node key = none :=
    Document.prop?_of_size_le (Nat.le_of_not_lt hle)
  have hlink : m.chainLink node = .answer none := by
    rw [chainLink, Document.typeRef?, Document.originMarker?, hprop, hprop]
    rfl
  rw [Leads, hlink] at h
  cases h

theorem lt_size_of_mem_dropLast {nodes : List NodeId} (h : nodes.IsChain m.Leads)
    (hn : node ∈ nodes.dropLast) : node < m.doc.size := by
  induction h with
  | nil => cases hn
  | singleton first => cases hn
  | cons_cons hfirst _ ih =>
    rw [List.dropLast_cons_cons] at hn
    rcases List.mem_cons.mp hn with rfl | hn
    · exact lt_size_of_leads hfirst
    · exact ih hn

/-- Chains are short in small documents: all their nodes but the last one are nodes of the
document. -/
theorem shortChains_of_size (h : m.doc.size + 1 < maxChainLength) : m.ShortChains := by
  intro nodes hnodup hchain
  have hsub : nodes.dropLast ⊆ List.range m.doc.size := fun node hn =>
    List.mem_range.mpr (lt_size_of_mem_dropLast hchain hn)
  have hle := ((hnodup.sublist (List.dropLast_sublist nodes)).subperm hsub).length_le
  rw [List.length_dropLast, List.length_range] at hle
  omega

/-! ## Nothing known is being looked up -/

variable (m) in
/-- Nothing that is being looked up is known at a stage. -/
structure Clear (n : Nat) (s : Cache) : Prop where
  marks : ∀ node, s.get? .effectiveType node = some .inProgress → (m.stage n).chainEnd node = none
  resolving : ∀ path topology site, m.IsCanonical path → m.siteAt? path = .ok (topology, site) →
    site.holder ∈ s.resolving → (m.stage n).resolution path = none

theorem clear_of_settled {T : Theory m} (n : Nat) (h : T.Settled s) : m.Clear n s := by
  refine ⟨fun node hm => absurd hm (h.unmarked node), fun path topology site _ _ hr => ?_⟩
  rw [h.idle] at hr
  cases hr

theorem Clear.mono {k : Nat} (h : m.Clear n s) (hle : k ≤ n) : m.Clear k s := by
  refine ⟨fun node hm => ?_, fun path topology site hp hsite ha => ?_⟩
  · cases hk : (m.stage k).chainEnd node with
    | none => rfl
    | some type =>
      have hn := (stage_mono hle).chainEnd node type hk
      rw [h.marks node hm] at hn
      cases hn
  · cases hk : (m.stage k).resolution path with
    | none => rfl
    | some r =>
      have hn := (stage_mono hle).resolution path r hk
      rw [h.resolving path topology site hp hsite ha] at hn
      cases hn

theorem Clear.of_marks (h : m.Clear n s)
    (hm : ∀ node, t.get? .effectiveType node = some .inProgress →
      s.get? .effectiveType node = some .inProgress) (hr : t.resolving = s.resolving) :
    m.Clear n t :=
  ⟨fun node hn => h.marks node (hm node hn),
    fun path topology site hp hsite ht => h.resolving path topology site hp hsite (hr ▸ ht)⟩

theorem Clear.extends (h : m.Clear n s) (he : Extends s t) : m.Clear n t :=
  h.of_marks (fun node => (he.marks node).mp) he.resolving

theorem Clear.begun {path : Path} {topology : Topology} {site : Site}
    (h : m.Clear n s) (hp : m.IsCanonical path) (hsite : m.siteAt? path = .ok (topology, site))
    (hn : (m.stage n).resolution path = none) : m.Clear n (begun s site.holder) := by
  refine ⟨h.marks, fun path' topology' site' hp' hsite' ha => ?_⟩
  rcases List.mem_cons.mp ha with heq | ha
  · rw [stage_resolution_congr (siteAt?_eq_of_holder hp' hp hsite' hsite heq)]
    exact hn
  · exact h.resolving path' topology' site' hp' hsite' ha

theorem Clear.mark {owner : NodeId} (h : m.Clear n s)
    (hst : s.Stored .effectiveType owner node .inProgress t)
    (hn : (m.stage n).chainEnd node = none) : m.Clear n t := by
  refine ⟨fun other hm => ?_, fun path topology site hp hsite hr =>
    h.resolving path topology site hp hsite (hst.resolving_eq ▸ hr)⟩
  by_cases heq : other = node
  · rw [heq]
    exact hn
  · rw [hst.get?_of_ne (.inl heq)] at hm
    exact h.marks other hm

/-! ## Finding -/

variable (m) in
/-- The lookups find all that is known at a stage. -/
structure Yields (n depth : Nat) (k : Lookups) : Prop where
  inspect : ∀ path r s, m.IsCanonical path → m.meanings.Ready depth s → m.Clear n s →
    (m.stage n).resolution path = some r → ∃ t, exec (k.inspect path) s = (.ok r, t)
  effectiveType : ∀ node type s, m.meanings.node node → m.meanings.Ready depth s →
    m.Clear n s → (m.doc.owner? node).isSome = true →
    (m.stage n).chainEnd node = some type → ∃ t, exec (k.effectiveType node) s = (.ok type, t)

/-- What can be inferred at a stage is found. -/
theorem Yields.run (h : m.Yields n depth k) (hk : m.meanings.Answers depth k) {α : Type}
    {x : Inquiry α} {post : α → Prop} {a : α} (hx : x.Meets m.meanings.contract post)
    (hi : x.infer m.doc (m.stage n) = some a) (hs : m.meanings.Ready depth s) (hc : m.Clear n s) :
    ∃ t, exec (x.run k) s = (.ok a, t) := by
  induction x generalizing s with
  | answer value =>
    cases hi
    exact ⟨s, rfl⟩
  | failure error => cases hi
  | inspect path next ih =>
    obtain ⟨r, hr, hnext⟩ := Option.bind_eq_some_iff.mp hi
    obtain ⟨t, ht⟩ := h.inspect path r s hx.1 hs hc hr
    obtain ⟨hready, hext, hend⟩ := hk.inspect path hx.1 s hs
    rw [ht] at hready hext hend
    obtain ⟨u, hu⟩ := ih r (hx.2 r hend) hnext hready (hc.extends hext)
    exact ⟨u, (exec_bind_ok ht _).trans hu⟩
  | effectiveType node next ih =>
    rw [Inquiry.infer] at hi
    split at hi
    · next ho =>
      obtain ⟨type, htype, hnext⟩ := Option.bind_eq_some_iff.mp hi
      obtain ⟨t, ht⟩ := h.effectiveType node type s hx.1 hs hc ho htype
      obtain ⟨hready, hext, hend⟩ := hk.effectiveType node hx.1 s hs
      rw [ht] at hready hext hend
      obtain ⟨u, hu⟩ := ih type (hx.2 type hend) hnext hready (hc.extends hext)
      exact ⟨u, (exec_bind_ok ht _).trans hu⟩
    · cases hi

/-! ## Resolutions -/

/-- A resolution that becomes known at a stage is found with what was known before. -/
theorem exec_inspectWith_known (hn : m.Yields n depth k) (hk : m.meanings.Answers depth k)
    {path : Path} {r : Resolution} (hp : m.IsCanonical path) (hs : m.meanings.Ready (depth + 1) s)
    (hc : m.Clear (n + 1) s) (hnew : (m.stage n).resolution path = none)
    (hr : (m.stage (n + 1)).resolution path = some r) :
    ∃ t, exec (m.inspectWith k path) s = (.ok r, t) := by
  have hby := hr
  rw [stage_resolution, resolutionBy] at hby
  split at hby
  · next topology site hsite =>
    obtain ⟨t, _, hex, ht, hst, _⟩ := exec_inspectWith_ok k hs.agrees.orderly hsite
    have hagree : m.meanings.Agrees t := hs.agrees.steady ht hst
    have hext : Extends s t := Extends.steady hst
    rw [hex]
    cases hget : t.get? .resolution site.holder with
    | some r' =>
      have hdenotes := denotes_of_resolves hp ⟨topology, site, hsite, hagree.kept _ _ hget⟩
      rw [exec_inspectSite, hget]
      exact ⟨t, by rw [hdenotes.unique ⟨n + 1, hr⟩]⟩
    | none =>
      have hfree : site.holder ∉ t.resolving := by
        intro hresolving
        rw [(hc.extends hext).resolving path topology site hp hsite hresolving] at hr
        cases hr
      have hready : m.meanings.Ready (depth + 1) t := ⟨hagree, hext.room_eq ▸ hs.room⟩
      have hclear : m.Clear n (begun t site.holder) :=
        ((hc.mono (Nat.le_succ n)).extends hext).begun hp hsite hnew
      obtain ⟨u, hu⟩ := hn.run hk (lawful_meanings.site path topology site hp hsite) hby
        (hready.begun hsite hfree) hclear
      obtain ⟨v, hv, _⟩ := Theory.exec_inspectSite_new lawful_meanings hk hp hsite hready hget hfree
      rw [hu] at hv
      exact ⟨v, hv⟩
  · cases hby

/-! ## Chains -/

variable (m) in
/-- The nodes that a walk has come by are distinct, marked, and each is the link of the one
before. -/
structure Trail (marked : List NodeId) (current : NodeId) (steps : Nat) (s : Cache) : Prop where
  length : marked.length + steps = maxChainLength
  chain : (marked ++ [current]).IsChain m.Leads
  nodup : marked.Nodup
  marks : ∀ node ∈ marked, s.get? .effectiveType node = some .inProgress

theorem Trail.steps_ne_zero (hshort : m.ShortChains) {marked : List NodeId} {current : NodeId}
    {steps : Nat} (h : m.Trail marked current steps s) : steps ≠ 0 := by
  intro hzero
  have hlt := hshort marked h.nodup h.chain.left_of_append
  have hlength := h.length
  omega

theorem Trail.next {marked : List NodeId} {current next owner : NodeId} {steps : Nat} {u : Cache}
    (h : m.Trail marked current (steps + 1) s) (hn : s.get? .effectiveType current = none)
    (hst : s.Stored .effectiveType owner current .inProgress t) (he : Extends t u)
    (hl : m.Leads current next) : m.Trail (marked ++ [current]) next steps u := by
  have hnew : current ∉ marked := by
    intro hmem
    rw [h.marks current hmem] at hn
    cases hn
  have hlength := h.length
  refine ⟨by rw [List.length_append, List.length_singleton]; omega, ?_, ?_, fun node hmem => ?_⟩
  · rw [List.append_assoc, List.singleton_append, List.isChain_append_cons_cons]
    exact ⟨h.chain, hl, .singleton next⟩
  · rw [List.nodup_append]
    refine ⟨h.nodup, by simp, fun a ha b hb heq => ?_⟩
    rw [List.mem_singleton.mp hb] at heq
    exact hnew (heq ▸ ha)
  · rw [he.marks]
    by_cases heq : node = current
    · rw [heq, hst.get?_self]
    · rw [hst.get?_of_ne (.inl heq)]
      rcases List.mem_append.mp hmem with hmem | hmem
      · exact h.marks node hmem
      · exact absurd (List.mem_singleton.mp hmem) heq

variable (m) in
/-- A walk along a chain whose end is known at a stage gets there. -/
def WalksEnd (n depth : Nat) (k : Lookups) : Prop :=
  ∀ start steps current marked s t walk type, ChainRun m k start steps current marked s walk t →
    m.meanings.node current → m.meanings.Ready (depth + 1) s → m.Clear n s →
    m.Trail marked current steps s → (m.stage n).chainEnd current = some type →
    walk.outcome = .ok type

theorem leads_of_infer (hfresh : m.Yields n m.nesting m.ask) {next : NodeId}
    (hnode : m.meanings.node node) (ho : (m.doc.owner? node).isSome = true)
    (hs : m.doc.hasStructure node = false)
    (hi : (m.chainLink node).infer m.doc (m.stage n) = some (some next)) : m.Leads node next := by
  have hempty : m.meanings.Settled Cache.empty := settled_empty
  obtain ⟨t, ht⟩ := hfresh.run (Theory.answers_ask lawful_meanings)
    (lawful_meanings.link node hnode ho hs) hi ⟨hempty.agrees, room_le _⟩
    (clear_of_settled n hempty)
  rw [Leads, ht]

/-- The link of a marked node whose end becomes known is found with what was known before: the chain
ends here, or it goes on with a node whose end was known before. -/
theorem exec_chainLink_known (hn : m.Yields n depth k)
    (hk : m.meanings.Answers depth k) {current type : NodeId} (hnode : m.meanings.node current)
    (hs : m.meanings.Ready (depth + 1) s) (hc : m.Clear n s)
    (hnone : s.get? .effectiveType current = none) (hstruct : m.doc.hasStructure current = false)
    (hmark : exec (m.markChain current) s = (.ok (), t))
    (hprev : (m.stage n).chainEnd current = none)
    (hend : (m.stage (n + 1)).chainEnd current = some type) :
    (∃ u, exec ((m.chainLink current).run k) t = (.ok none, u) ∧ type = current) ∨
      ∃ next owner u, exec ((m.chainLink current).run k) t = (.ok (some next), u) ∧
        (m.chainLink current).infer m.doc (m.stage n) = some (some next) ∧
        (m.stage n).chainEnd next = some type ∧ m.meanings.node next ∧
        s.Stored .effectiveType owner current .inProgress t ∧ Extends t u ∧
        m.meanings.Ready (depth + 1) u ∧ m.Clear n u := by
  obtain ⟨ho, hknown⟩ := chainEnd_cases hstruct hend
  obtain ⟨owner, _, hst, hready, hafter⟩ :=
    Theory.link_cases lawful_meanings hk hnode hs hnone hstruct hmark
  have hmeets := lawful_meanings.link current hnode ho hstruct
  have hclear := hc.mark hst hprev
  rcases hknown with ⟨hi, heq⟩ | ⟨next, hi, hnext⟩
  · obtain ⟨u, hu⟩ := hn.run hk hmeets hi hready hclear
    exact .inl ⟨u, hu, heq⟩
  · obtain ⟨u, hu⟩ := hn.run hk hmeets hi hready hclear
    obtain ⟨hready', hext, hlinks⟩ := hafter _ _ hu
    exact .inr ⟨next, owner, u, hu, hi, hnext, hlinks.1, hst, hext, hready', hclear.extends hext⟩

theorem walksEnd_succ (hshort : m.ShortChains)
    (hn : m.Yields n depth k) (hk : m.meanings.Answers depth k)
    (hfresh : m.Yields n m.nesting m.ask) (hrest : m.WalksEnd n depth k) :
    m.WalksEnd (n + 1) depth k := by
  intro start steps current marked s t walk type hrun hnode hs hc htrail hend
  have hbefore := hc.mono (Nat.le_succ n)
  cases hprev : (m.stage n).chainEnd current with
  | some type' =>
    have heq : some type' = some type :=
      ((stage_le_succ n).chainEnd current type' hprev).symm.trans hend
    cases heq
    exact hrest start steps current marked s t walk _ hrun hnode hs hbefore htrail hprev
  | none =>
    cases hrun with
    | known hdone => rw [(hs.agrees.typed _ _ hdone).2.unique ⟨n + 1, hend⟩]
    | circular hmark =>
      rw [hc.marks current hmark] at hend
      cases hend
    | exhausted => exact absurd rfl (htrail.steps_ne_zero hshort)
    | structured _ hstruct => rw [(chainEnds_structured hstruct).unique ⟨n + 1, hend⟩]
    | unmarkable hnone hstruct hmark =>
      obtain ⟨ho, _⟩ := chainEnd_cases hstruct hend
      rw [(outside_of_markChain hs.agrees.orderly hnone hmark).1] at ho
      cases ho
    | broken hnone hstruct hmark hlink =>
      rcases exec_chainLink_known hn hk hnode hs hbefore hnone hstruct hmark hprev hend with
        ⟨_, hu, _⟩ | ⟨_, _, _, hu, _⟩
      · rw [hu] at hlink
        cases hlink
      · rw [hu] at hlink
        cases hlink
    | ended hnone hstruct hmark hlink =>
      rcases exec_chainLink_known hn hk hnode hs hbefore hnone hstruct hmark hprev hend with
        ⟨_, _, heq⟩ | ⟨_, _, _, hu, _⟩
      · rw [heq]
      · rw [hu] at hlink
        cases hlink
    | link hnone hstruct hmark hlink hrun =>
      rcases exec_chainLink_known hn hk hnode hs hbefore hnone hstruct hmark hprev hend with
        ⟨_, hu, _⟩ | ⟨next, owner, _, hu, hi, hnext, hnode', hst, hext, hready, hclear⟩
      · rw [hu] at hlink
        cases hlink
      · rw [hu] at hlink
        cases hlink
        have ho := (chainEnd_cases hstruct hend).1
        exact hrest start _ _ _ _ t walk type hrun hnode' hready hclear
          (htrail.next hnone hst hext (leads_of_infer hfresh hnode ho hstruct hi)) hnext

/-- The effective type of a node is found if the walk along its chain gets to the end. -/
theorem exec_effectiveTypeWith_known_end (hk : m.meanings.Answers depth k)
    (hwalk : m.WalksEnd n depth k) {type : NodeId} (hnode : m.meanings.node node)
    (hs : m.meanings.Ready (depth + 1) s) (hc : m.Clear n s)
    (ho : (m.doc.owner? node).isSome = true) (hend : (m.stage n).chainEnd node = some type) :
    ∃ t, exec (m.effectiveTypeWith k node) s = (.ok type, t) := by
  rcases hstate : s.get? .effectiveType node with _ | _ | type'
  · obtain ⟨walk, t, u, hrun, hex, _⟩ :=
      Theory.exec_effectiveTypeWith_new lawful_meanings hk hnode hs ho hstate
    have hcount := Extends.count s countWalk
    have htrail : m.Trail [] node maxChainLength (s.count countWalk) :=
      ⟨Nat.zero_add _, .singleton node, .nil, fun _ h => by cases h⟩
    have hout := hwalk _ _ _ _ _ _ _ _ hrun hnode ⟨hs.agrees.count _, hcount.room_eq ▸ hs.room⟩
      (hc.extends hcount) htrail hend
    exact ⟨u, by rw [hex, hout]⟩
  · rw [hc.marks node hstate] at hend
    cases hend
  · rw [exec_effectiveTypeWith_known hstate, (hs.agrees.typed _ _ hstate).2.unique ⟨n, hend⟩]
    exact ⟨s, rfl⟩

/-! ## All lookups -/

/-- Lookups find all that is known, and walk to the ends of all chains. -/
theorem yields_lookups (hshort : m.ShortChains) (n depth : Nat) :
    m.Yields n depth (m.lookups depth) ∧ m.WalksEnd n depth (m.lookups depth) := by
  induction n generalizing depth with
  | zero =>
    refine ⟨⟨fun path r s _ _ _ hr => ?_, fun node type s _ _ _ _ ht => ?_⟩, ?_⟩
    · cases hr
    · cases ht
    · intro _ _ _ _ _ _ _ _ _ _ _ _ _ hend
      cases hend
  | succ n ih =>
    have hwalks : ∀ depth, m.WalksEnd (n + 1) depth (m.lookups depth) :=
      fun depth => walksEnd_succ hshort (ih depth).1
        (Theory.answers_lookups lawful_meanings depth) (ih m.nesting).1 (ih depth).2
    refine ⟨⟨fun path r s hp hs hc hr => ?_, fun node type s hnode hs hc ho hend => ?_⟩,
      hwalks depth⟩
    · cases depth with
      | zero => exact absurd hs.room (Nat.not_lt_zero _)
      | succ depth =>
        cases hprev : (m.stage n).resolution path with
        | some r' =>
          have heq : some r' = some r :=
            ((stage_le_succ n).resolution path r' hprev).symm.trans hr
          cases heq
          exact (ih (depth + 1)).1.inspect path _ s hp hs (hc.mono (Nat.le_succ n)) hprev
        | none =>
          exact exec_inspectWith_known (ih depth).1
            (Theory.answers_lookups lawful_meanings depth) hp hs hc hprev hr
    · cases depth with
      | zero => exact absurd hs.room (Nat.not_lt_zero _)
      | succ depth =>
        exact exec_effectiveTypeWith_known_end (Theory.answers_lookups lawful_meanings depth)
          (hwalks depth) hnode hs hc ho hend

/-- What is inferred is found, unless a part of it is being looked up. -/
theorem exec_of_infers (hshort : m.ShortChains) {α : Type} {x : Inquiry α} {post : α → Prop} {a : α}
    (hx : x.Meets (m.rules m.IsCanonical).contract post) (hs : m.meanings.Ready depth s)
    (hclear : ∀ n, m.Clear n s) (h : m.Infers x a) :
    ∃ t, exec (x.run (m.lookups depth)) s = (.ok a, t) := by
  obtain ⟨n, hn⟩ := h
  exact (yields_lookups hshort n depth).1.run (Theory.answers_lookups lawful_meanings depth)
    (governs_meanings.refines.meets hx) hn hs (hclear n)

end Model

end SchemaRefs
