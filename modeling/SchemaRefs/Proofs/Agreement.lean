import SchemaRefs.Proofs.Completeness

/-!
# Two sessions agree

Two sessions that look up the same things at the moment come to the same outcome for the next
question, whatever else they remember, if nothing that they look up has a meaning (`Paired`). A
question with a meaning is answered by both (`yields_lookups`). A question without one is in neither
cache, so that both sessions go through the same steps and fail in the same way.

* `Paired.run`: sessions that agree on all questions agree on what an inquiry comes to;
* `agree_lookups`: sessions agree on all questions.
-/

namespace SchemaRefs

open CacheM

namespace Model

variable {m : Model} {s t s' t' : Cache} {depth : Nat} {k : Lookups} {node : NodeId}

variable (m) in
/-- Two caches that agree with the meanings and in what is being looked up, such that nothing that
is being looked up has a meaning. -/
structure Paired (depth : Nat) (s t : Cache) : Prop where
  left : m.meanings.Ready depth s
  right : m.meanings.Ready depth t
  marks : ∀ node, s.get? .effectiveType node = some .inProgress ↔
    t.get? .effectiveType node = some .inProgress
  resolving : s.resolving = t.resolving
  clear : ∀ n, m.Clear n s

namespace Paired

theorem clear_right (h : m.Paired depth s t) (n : Nat) : m.Clear n t :=
  (h.clear n).of_marks (fun node => (h.marks node).mpr) h.resolving.symm

theorem extended (h : m.Paired depth s t) (hs : m.meanings.Ready depth s')
    (ht : m.meanings.Ready depth t') (hs' : Extends s s') (ht' : Extends t t') :
    m.Paired depth s' t' :=
  ⟨hs, ht, fun node => (hs'.marks node).trans ((h.marks node).trans (ht'.marks node).symm),
    hs'.resolving.trans (h.resolving.trans ht'.resolving.symm), fun n => (h.clear n).extends hs'⟩

theorem keeps {α : Type} {E : ResolveError → Prop} {Q : α → Prop} {x : CacheM α}
    (h : m.Paired depth s t) (hx : Keeps (m.meanings.Ready depth) Extends E Q x) :
    m.Paired depth (exec x s).2 (exec x t).2 :=
  h.extended (hx s h.left).1 (hx t h.right).1 (hx s h.left).2.1 (hx t h.right).2.1

end Paired

variable (m) in
/-- Paired sessions agree on the answers to all questions. -/
structure Agree (depth : Nat) (k : Lookups) : Prop where
  inspect : ∀ path s t, m.IsCanonical path → m.Paired depth s t →
    (exec (k.inspect path) s).1 = (exec (k.inspect path) t).1
  effectiveType : ∀ node s t, m.meanings.node node → m.Paired depth s t →
    (exec (k.effectiveType node) s).1 = (exec (k.effectiveType node) t).1

/-- After a question on which both sessions agree, they go on with the same answer. -/
theorem Paired.bind {α β : Type} {E : ResolveError → Prop} {Q : α → Prop} {x : CacheM α}
    {f : α → CacheM β} (h : m.Paired depth s t) (hx : Keeps (m.meanings.Ready depth) Extends E Q x)
    (hout : (exec x s).1 = (exec x t).1)
    (hf : ∀ a s' t', Q a → m.Paired depth s' t' → (exec (f a) s').1 = (exec (f a) t').1) :
    (exec (x >>= f) s).1 = (exec (x >>= f) t).1 := by
  have hpair := h.keeps hx
  have hend := (hx s h.left).2.2
  rw [exec_bind, exec_bind]
  rcases hs : exec x s with ⟨rs, s'⟩
  rcases ht : exec x t with ⟨rt, t'⟩
  rw [hs, ht] at hout hpair
  rw [hs] at hend
  cases hout
  cases rs with
  | error e => rfl
  | ok a => exact hf a s' t' hend hpair

theorem Paired.run {α : Type} {x : Inquiry α} {post : α → Prop} (h : m.Paired depth s t)
    (hk : m.meanings.Answers depth k) (hagree : m.Agree depth k)
    (hx : x.Meets m.meanings.contract post) :
    (exec (x.run k) s).1 = (exec (x.run k) t).1 := by
  induction x generalizing s t with
  | answer value => rfl
  | failure error => rfl
  | inspect path next ih =>
    exact h.bind (hk.inspect path hx.1) (hagree.inspect path s t hx.1 h)
      fun r s' t' hr h' => ih r h' (hx.2 r hr)
  | effectiveType node next ih =>
    exact h.bind (hk.effectiveType node hx.1) (hagree.effectiveType node s t hx.1 h)
      fun type s' t' htype h' => ih type h' (hx.2 type htype)

/-! ## Resolutions -/

/-- Inspecting a path whose site is known, in sessions that do not know its resolution. -/
theorem agree_inspectSite {path : Path} {topology : Topology} {site : Site}
    (hk : m.meanings.Answers depth k) (hagree : m.Agree depth k) (hp : m.IsCanonical path)
    (hsite : m.siteAt? path = .ok (topology, site))
    (hunknown : ∀ n, (m.stage n).resolution path = none) (h : m.Paired (depth + 1) s t) :
    (exec (m.inspectSite k path topology site) s).1 =
      (exec (m.inspectSite k path topology site) t).1 := by
  have hfree : ∀ {u : Cache}, m.meanings.Ready (depth + 1) u →
      u.get? .resolution site.holder = none := by
    intro u hu
    cases hget : u.get? .resolution site.holder with
    | none => rfl
    | some r =>
      obtain ⟨n, hn⟩ := denotes_of_resolves hp ⟨topology, site, hsite, hu.agrees.kept _ _ hget⟩
      rw [hunknown n] at hn
      cases hn
  by_cases hresolving : site.holder ∈ t.resolving
  · rw [exec_inspectSite, exec_inspectSite, hfree h.left, hfree h.right, h.resolving]
    dsimp only
    rw [if_pos hresolving, if_pos hresolving]
  · have hresolving' : site.holder ∉ s.resolving := h.resolving ▸ hresolving
    have hpair : m.Paired depth (begun s site.holder) (begun t site.holder) :=
      ⟨h.left.begun hsite hresolving', h.right.begun hsite hresolving, h.marks,
        congrArg (site.holder :: ·) h.resolving, fun n => (h.clear n).begun hp hsite (hunknown n)⟩
    have hout := hpair.run hk hagree (lawful_meanings.site path topology site hp hsite)
    obtain ⟨_, hs, _⟩ := Theory.exec_inspectSite_new lawful_meanings hk hp hsite h.left
      (hfree h.left) hresolving'
    obtain ⟨_, ht, _⟩ := Theory.exec_inspectSite_new lawful_meanings hk hp hsite h.right
      (hfree h.right) hresolving
    rw [hs, ht, hout]

theorem agree_inspectWith {path : Path} (hk : m.meanings.Answers depth k) (hagree : m.Agree depth k)
    (hp : m.IsCanonical path) (hunknown : ∀ n, (m.stage n).resolution path = none)
    (h : m.Paired (depth + 1) s t) :
    (exec (m.inspectWith k path) s).1 = (exec (m.inspectWith k path) t).1 := by
  have hleft := h.left.agrees.orderly
  have hright := h.right.agrees.orderly
  cases hsite : m.siteAt? path with
  | error e =>
    obtain ⟨_, hs, _⟩ := exec_inspectWith_error hleft hsite
    obtain ⟨_, ht, _⟩ := exec_inspectWith_error hright hsite
    rw [hs, ht]
  | ok found =>
    obtain ⟨topology, site⟩ := found
    obtain ⟨s', _, hs, hs', hst, _⟩ := exec_inspectWith_ok k hleft hsite
    obtain ⟨t', _, ht, ht', hst', _⟩ := exec_inspectWith_ok k hright hsite
    have hext := Extends.steady hst
    have hext' := Extends.steady hst'
    have hpair : m.Paired (depth + 1) s' t' :=
      h.extended ⟨h.left.agrees.steady hs' hst, hext.room_eq ▸ h.left.room⟩
        ⟨h.right.agrees.steady ht' hst', hext'.room_eq ▸ h.right.room⟩ hext hext'
    rw [hs, ht]
    exact agree_inspectSite hk hagree hp hsite hunknown hpair

/-! ## Chains -/

theorem Paired.deepen (h : m.Paired depth s t) : m.Paired (depth + 1) s t :=
  ⟨⟨h.left.agrees, Nat.lt_succ_of_lt h.left.room⟩, ⟨h.right.agrees, Nat.lt_succ_of_lt h.right.room⟩,
    h.marks, h.resolving, h.clear⟩

/-- A node whose chain has no end has no effective type in either session, and a mark in both or in
none. -/
theorem Paired.type_cases (h : m.Paired depth s t)
    (hunknown : ∀ n, (m.stage n).chainEnd node = none) :
    s.get? .effectiveType node = some .inProgress ∧ t.get? .effectiveType node = some .inProgress ∨
      s.get? .effectiveType node = none ∧ t.get? .effectiveType node = none := by
  have hundone : ∀ {u : Cache} {type : NodeId}, m.meanings.Ready depth u →
      u.get? .effectiveType node ≠ some (.done type) := by
    intro u type hu hdone
    obtain ⟨n, hn⟩ := (hu.agrees.typed node type hdone).2
    rw [hunknown n] at hn
    cases hn
  rcases hs : s.get? .effectiveType node with _ | _ | type
  · rcases ht : t.get? .effectiveType node with _ | _ | type
    · exact .inr ⟨rfl, rfl⟩
    · rw [(h.marks node).mpr ht] at hs
      cases hs
    · exact absurd ht (hundone h.right)
  · exact .inl ⟨rfl, (h.marks node).mp hs⟩
  · exact absurd hs (hundone h.left)

theorem Paired.mark {owner : NodeId} (h : m.Paired (depth + 1) s t)
    (hunknown : ∀ n, (m.stage n).chainEnd node = none) (hs : m.meanings.Ready depth s')
    (ht : m.meanings.Ready depth t') (hst : s.Stored .effectiveType owner node .inProgress s')
    (hst' : t.Stored .effectiveType owner node .inProgress t') : m.Paired depth s' t' := by
  refine ⟨hs, ht, fun other => ?_, hst.resolving_eq.trans
    (h.resolving.trans hst'.resolving_eq.symm),
    fun n => (h.clear n).mark hst (hunknown n)⟩
  by_cases heq : other = node
  · rw [heq, hst.get?_self, hst'.get?_self]
  · rw [hst.get?_of_ne (.inl heq), hst'.get?_of_ne (.inl heq)]
    exact h.marks other

/-- The link of a chain without end leads to a chain without end. -/
theorem endless_link (hk : m.meanings.Answers depth k) (hnode : m.meanings.node node)
    (ho : (m.doc.owner? node).isSome = true) (hstruct : m.doc.hasStructure node = false)
    (hs : m.meanings.Ready depth s) (hunknown : ∀ n, (m.stage n).chainEnd node = none)
    {link : Option NodeId} (hlink : exec ((m.chainLink node).run k) s = (.ok link, t)) :
    ∃ next, link = some next ∧ m.meanings.node next ∧ ∀ n, (m.stage n).chainEnd next = none := by
  have hrules : (m.rules m.IsCanonical).Lawful := lawful_rules pathClosed_isCanonical
  have hend := (hk.run (meets_inferred (hrules.link node hnode ho hstruct)) s hs).2.2
  rw [hlink] at hend
  obtain ⟨hlinks, n, hn⟩ := hend
  have hendless : ∀ type, ¬ m.ChainEnds node type := by
    rintro type ⟨n, hn⟩
    rw [hunknown n] at hn
    cases hn
  cases link with
  | none => exact absurd (chainEnds_ended ho hstruct hn) (hendless node)
  | some next =>
    refine ⟨next, rfl, hlinks.1, fun i => ?_⟩
    cases hi : (m.stage i).chainEnd next with
    | none => rfl
    | some type => exact absurd (chainEnds_link ho hstruct hn ⟨i, hi⟩) (hendless type)

/-- Both sessions mark the node, or both cannot. -/
theorem Paired.markChain_cases (hk : m.meanings.Answers depth k) (hnode : m.meanings.node node)
    (hunknown : ∀ n, (m.stage n).chainEnd node = none) (hstruct : m.doc.hasStructure node = false)
    (h : m.Paired (depth + 1) s t) (hs : s.get? .effectiveType node = none)
    (ht : t.get? .effectiveType node = none) :
    (∃ s' t', exec (m.markChain node) s = (.ok (), s') ∧ exec (m.markChain node) t = (.ok (), t') ∧
      (m.doc.owner? node).isSome = true ∧ m.Paired depth s' t') ∨
    ∃ e, exec (m.markChain node) s = (.error e, s) ∧ exec (m.markChain node) t = (.error e, t) := by
  rcases Model.markChain_cases h.left.agrees.orderly hs with ⟨owner, s', ho, hm, hst, _⟩ | ⟨ho, hm⟩
  · obtain ⟨owner', t', ho', hm', hst', _⟩ :=
      (Model.markChain_cases h.right.agrees.orderly ht).resolve_right fun hfails => by
        rw [hfails.1] at ho
        cases ho
    rw [ho] at ho'
    cases ho'
    obtain ⟨_, _, _, hleft, _⟩ := Theory.link_cases lawful_meanings hk hnode h.left hs hstruct hm
    obtain ⟨_, _, _, hright, _⟩ := Theory.link_cases lawful_meanings hk hnode h.right ht hstruct hm'
    exact .inl ⟨s', t', hm, hm', by rw [ho]; rfl, h.mark hunknown hleft hright hst hst'⟩
  · rcases Model.markChain_cases h.right.agrees.orderly ht with ⟨_, _, ho', _⟩ | ⟨_, hm'⟩
    · rw [ho] at ho'
      cases ho'
    · exact .inr ⟨_, hm, hm'⟩

theorem hasStructure_of_endless (hunknown : ∀ n, (m.stage n).chainEnd node = none) :
    m.doc.hasStructure node = false := by
  cases hstruct : m.doc.hasStructure node with
  | false => rfl
  | true =>
    obtain ⟨n, hn⟩ := chainEnds_structured hstruct
    rw [hunknown n] at hn
    cases hn

theorem agree_walkChain (hk : m.meanings.Answers depth k) (hagree : m.Agree depth k)
    (start : NodeId) (steps : Nat) {current : NodeId} (marked : List NodeId)
    (hnode : m.meanings.node current) (hunknown : ∀ n, (m.stage n).chainEnd current = none)
    (h : m.Paired (depth + 1) s t) :
    (exec (m.walkChain k start steps current marked) s).1 =
      (exec (m.walkChain k start steps current marked) t).1 := by
  induction steps generalizing s t current marked with
  | zero =>
    rcases h.type_cases hunknown with ⟨hs, ht⟩ | ⟨hs, ht⟩
    · rw [exec_walkChain_circular hs, exec_walkChain_circular ht]
    · rw [exec_walkChain_zero hs, exec_walkChain_zero ht]
  | succ steps ih =>
    rcases h.type_cases hunknown with ⟨hs, ht⟩ | ⟨hs, ht⟩
    · rw [exec_walkChain_circular hs, exec_walkChain_circular ht]
    · have hstruct := hasStructure_of_endless hunknown
      rw [exec_walkChain_succ hs hstruct, exec_walkChain_succ ht hstruct]
      rcases h.markChain_cases hk hnode hunknown hstruct hs ht with ⟨s', t', hm, hm', ho, hpair⟩
        | ⟨e, hm, hm'⟩
      · have hmeets := lawful_meanings.link current hnode ho hstruct
        have hout := hpair.run hk hagree hmeets
        have hafter := hpair.keeps (hk.run hmeets)
        rw [hm, hm']
        dsimp only
        rcases hl : exec ((m.chainLink current).run k) s' with ⟨rs, u⟩
        rcases hl' : exec ((m.chainLink current).run k) t' with ⟨rt, v⟩
        rw [hl, hl'] at hout hafter
        cases hout
        cases rs with
        | error e => rfl
        | ok link =>
          obtain ⟨next, rfl, hnext, hendless⟩ :=
            endless_link hk hnode ho hstruct hpair.left hunknown hl
          exact ih (marked ++ [current]) hnext hendless hafter.deepen
      · rw [hm, hm']

/-- A walk along a chain without end fails, and takes its marks back. -/
theorem exec_effectiveTypeWith_endless (hk : m.meanings.Answers depth k)
    (hnode : m.meanings.node node) (hunknown : ∀ n, (m.stage n).chainEnd node = none)
    (hs : m.meanings.Ready (depth + 1) s) (hnone : s.get? .effectiveType node = none) :
    ∃ walk e, (exec (m.walkChain k node maxChainLength node []) (s.count countWalk)).1 = .ok walk ∧
      walk.outcome = .error e ∧ (exec (m.effectiveTypeWith k node) s).1 = .error e := by
  obtain ⟨walk, t, hwalk, hrun, hex⟩ := exec_effectiveTypeWith_walk (m := m) (k := k) hnone
  have hready : m.meanings.Ready (depth + 1) (s.count countWalk) :=
    ⟨hs.agrees.count _, (Extends.count s countWalk).room_eq ▸ hs.room⟩
  obtain ⟨new, hw⟩ := Theory.walked_chainRun lawful_meanings hk hrun hready hnode
  cases hout : walk.outcome with
  | ok type =>
    have hends := hw.ends
    rw [hout] at hends
    obtain ⟨n, hn⟩ := hends.1.2
    rw [hunknown n] at hn
    cases hn
  | error e =>
    obtain ⟨u, hu, _⟩ := hw.unmark
    refine ⟨walk, e, by rw [hwalk], hout, ?_⟩
    rw [hex, hout]
    dsimp only
    rw [hu]

theorem agree_effectiveTypeWith (hk : m.meanings.Answers depth k)
    (hagree : m.Agree depth k) (hnode : m.meanings.node node)
    (hunknown : ∀ n, (m.stage n).chainEnd node = none) (h : m.Paired (depth + 1) s t) :
    (exec (m.effectiveTypeWith k node) s).1 = (exec (m.effectiveTypeWith k node) t).1 := by
  rcases h.type_cases hunknown with ⟨hs, ht⟩ | ⟨hs, ht⟩
  · rw [exec_effectiveTypeWith_circular hs, exec_effectiveTypeWith_circular ht]
  · obtain ⟨walk, e, hwalk, hout, hex⟩ := exec_effectiveTypeWith_endless hk hnode hunknown h.left hs
    obtain ⟨walk', e', hwalk', hout', hex'⟩ :=
      exec_effectiveTypeWith_endless hk hnode hunknown h.right ht
    have hleft := Extends.count s countWalk
    have hright := Extends.count t countWalk
    have hpair : m.Paired (depth + 1) (s.count countWalk) (t.count countWalk) :=
      h.extended ⟨h.left.agrees.count _, hleft.room_eq ▸ h.left.room⟩
        ⟨h.right.agrees.count _, hright.room_eq ▸ h.right.room⟩ hleft hright
    have hsame := agree_walkChain hk hagree node maxChainLength [] hnode hunknown hpair
    rw [hwalk, hwalk'] at hsame
    cases hsame
    rw [hout] at hout'
    cases hout'
    rw [hex, hex']

/-! ## All lookups -/

theorem agree_lookups (hshort : m.ShortChains) (depth : Nat) : m.Agree depth (m.lookups depth) := by
  induction depth with
  | zero =>
    exact ⟨fun _ _ _ _ h => absurd h.left.room (Nat.not_lt_zero _),
      fun _ _ _ _ h => absurd h.left.room (Nat.not_lt_zero _)⟩
  | succ depth ih =>
    have hk := Theory.answers_lookups (lawful_meanings (m := m)) depth
    refine ⟨fun path s t hp h => ?_, fun node s t hnode h => ?_⟩
    · by_cases hunknown : ∀ n, (m.stage n).resolution path = none
      · exact agree_inspectWith hk ih hp hunknown h
      · obtain ⟨n, hn⟩ := not_forall.mp hunknown
        obtain ⟨r, hr⟩ := Option.ne_none_iff_exists'.mp hn
        have hyields := (yields_lookups hshort n (depth + 1)).1
        obtain ⟨_, hs⟩ := hyields.inspect path r s hp h.left (h.clear n) hr
        obtain ⟨_, ht⟩ := hyields.inspect path r t hp h.right (h.clear_right n) hr
        rw [hs, ht]
    · by_cases hunknown : ∀ n, (m.stage n).chainEnd node = none
      · exact agree_effectiveTypeWith hk ih hnode hunknown h
      · obtain ⟨n, hn⟩ := not_forall.mp hunknown
        obtain ⟨type, htype⟩ := Option.ne_none_iff_exists'.mp hn
        cases ho : m.doc.owner? node with
        | none =>
          have hleft := exec_effectiveTypeWith_outside (k := m.lookups depth)
            h.left.agrees.orderly ho
          have hright := exec_effectiveTypeWith_outside (k := m.lookups depth)
            h.right.agrees.orderly ho
          exact (congrArg Prod.fst hleft).trans (congrArg Prod.fst hright).symm
        | some owner =>
          have howned : (m.doc.owner? node).isSome = true := by rw [ho]; rfl
          have hyields := (yields_lookups hshort n (depth + 1)).1
          obtain ⟨_, hs⟩ := hyields.effectiveType node type s hnode h.left (h.clear n) howned htype
          obtain ⟨_, ht⟩ := hyields.effectiveType node type t hnode h.right (h.clear_right n)
            howned htype
          rw [hs, ht]

end Model

end SchemaRefs
