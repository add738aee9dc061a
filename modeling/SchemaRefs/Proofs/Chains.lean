import SchemaRefs.Proofs.Preparation
import SchemaRefs.Session.Navigation

/-!
# Walks along chains of types

`ChainRun` says what a walk along a chain can do, one case per way to end and one for a further
link. Every walk is such a run (`exists_chainRun`), so that what holds of all walks is shown by
induction on runs.

When the walk is over, its marks become the effective type (`exec_storeTypes`), or are taken back
(`exec_unmarkAll`).
-/

namespace SchemaRefs

open CacheM

namespace Model

variable {m : Model} {k : Lookups} {s t : Cache} {marked : List NodeId} {steps : Nat}
  {current node start type : NodeId}

/-! ## Marks -/

/-- Nothing but effective types has changed. -/
structure SameButTypes (s t : Cache) : Prop where
  same : ∀ (key : FactKey) (node : NodeId), key ≠ .effectiveType →
    t.get? key node = s.get? key node
  resolving : t.resolving = s.resolving

theorem SameButTypes.refl (s : Cache) : SameButTypes s s :=
  ⟨fun _ _ _ => rfl, rfl⟩

theorem SameButTypes.trans {u : Cache} (h : SameButTypes s t) (h' : SameButTypes t u) :
    SameButTypes s u :=
  ⟨fun key node hk => (h'.same key node hk).trans (h.same key node hk),
    h'.resolving.trans h.resolving⟩

theorem SameButTypes.stored {owner : NodeId} {value : TypeState}
    (h : s.Stored .effectiveType owner node value t) : SameButTypes s t :=
  ⟨fun _ _ hk => h.get?_of_ne (.inr hk), h.resolving_eq⟩

theorem Remembers.types {u : Cache} (h : Remembers s t) (hsame : SameButTypes t u)
    (hkept : ∀ node state, s.get? .effectiveType node = some state →
      u.get? .effectiveType node = some state) : Remembers s u := by
  intro key node value hv
  by_cases hk : key = .effectiveType
  · subst hk
    exact hkept node value hv
  · rw [hsame.same key node hk, h key node value hv]

theorem exec_ownerOf (node : NodeId) (s : Cache) :
    exec (m.ownerOf node) s =
      match m.doc.owner? node with
      | some owner => (.ok owner, s)
      | none => (.error (.assertion (.outsideDefinitions node)), s) := by
  unfold ownerOf
  cases m.doc.owner? node <;> rfl

/-- The mark or effective type of a node is stored, unless the node has no owner. -/
theorem setType_cases (h : Orderly m s) {value : TypeState}
    (hr : ∀ old, s.get? .effectiveType node = some old →
      FactKey.mayReplace .effectiveType old value = true) :
    (∃ owner t, m.doc.owner? node = some owner ∧
      exec (m.ownerOf node >>= fun owner => setFact .effectiveType owner node value) s =
        (.ok (), t) ∧
      s.Stored .effectiveType owner node value t ∧ Orderly m t) ∨
    (m.doc.owner? node = none ∧
      exec (m.ownerOf node >>= fun owner => setFact .effectiveType owner node value) s =
        (.error (.assertion (.outsideDefinitions node)), s)) := by
  have howner : exec (m.ownerOf node) s = _ := exec_ownerOf node s
  cases ho : m.doc.owner? node with
  | none =>
    rw [ho] at howner
    exact .inr ⟨rfl, exec_bind_error howner _⟩
  | some owner =>
    rw [ho] at howner
    obtain ⟨t, hex, hst⟩ := h.owned.setFact ho hr
    refine .inl ⟨owner, t, rfl, ?_, hst, h.stored hst ho rfl (by decide)⟩
    rw [exec_bind_ok howner, hex]

theorem markChain_cases (h : Orderly m s) (hn : s.get? .effectiveType node = none) :
    (∃ owner t, m.doc.owner? node = some owner ∧ exec (m.markChain node) s = (.ok (), t) ∧
      s.Stored .effectiveType owner node .inProgress t ∧ Orderly m t) ∨
    (m.doc.owner? node = none ∧
      exec (m.markChain node) s = (.error (.assertion (.outsideDefinitions node)), s)) :=
  setType_cases h fun old hold => by rw [hn] at hold; cases hold

theorem stored_of_markChain (h : Orderly m s) (hn : s.get? .effectiveType node = none)
    (hm : exec (m.markChain node) s = (.ok (), t)) :
    ∃ owner, m.doc.owner? node = some owner ∧ s.Stored .effectiveType owner node .inProgress t ∧
    Orderly m t := by
  rcases markChain_cases h hn with ⟨owner, t', ho, hm', hst, ht⟩ | ⟨_, hm'⟩
  · rw [hm] at hm'
    cases hm'
    exact ⟨owner, ho, hst, ht⟩
  · rw [hm] at hm'
    cases hm'

theorem outside_of_markChain (h : Orderly m s) (hn : s.get? .effectiveType node = none)
    {e : ResolveError} (hm : exec (m.markChain node) s = (.error e, t)) :
    m.doc.owner? node = none ∧ e = .assertion (.outsideDefinitions node) ∧ t = s := by
  rcases markChain_cases h hn with ⟨_, _, _, hm', _⟩ | ⟨ho, hm'⟩
  · rw [hm] at hm'
    cases hm'
  · rw [hm] at hm'
    cases hm'
    exact ⟨ho, rfl, rfl⟩

/-- A type that no node of the list contradicts is stored for all of them. -/
theorem exec_storeTypes (h : Orderly m s) {nodes : List NodeId}
    (ho : ∀ node ∈ nodes, (m.doc.owner? node).isSome = true)
    (hr : ∀ node ∈ nodes, ∀ old, s.get? .effectiveType node = some old →
      old = .inProgress ∨ old = .done type) :
    ∃ t, exec (nodes.forM (m.storeType type)) s = (.ok (), t) ∧ Orderly m t ∧ SameButTypes s t ∧
      ∀ node, t.get? .effectiveType node =
        if node ∈ nodes then some (.done type) else s.get? .effectiveType node := by
  induction nodes generalizing s with
  | nil => exact ⟨s, rfl, h, .refl s, by simp⟩
  | cons first rest ih =>
    have hreplace : ∀ old, s.get? .effectiveType first = some old →
        FactKey.mayReplace .effectiveType old (.done type) = true := by
      intro old hold
      rcases hr first List.mem_cons_self old hold with rfl | rfl <;> simp [FactKey.mayReplace]
    rcases setType_cases h hreplace with ⟨owner, u, _, hex, hst, hu⟩ | ⟨hnone, _⟩
    · have hget : ∀ node, u.get? .effectiveType node =
          if node = first then some (.done type) else s.get? .effectiveType node := by
        intro node
        split
        · next heq => rw [heq, hst.get?_self]
        · next hne => exact hst.get?_of_ne (.inl hne)
      have hrest : ∀ node ∈ rest, ∀ old, u.get? .effectiveType node = some old →
          old = .inProgress ∨ old = .done type := by
        intro node hn old hold
        rw [hget] at hold
        split at hold
        · exact .inr (Option.some.inj hold).symm
        · exact hr node (List.mem_cons_of_mem _ hn) old hold
      obtain ⟨t, hex', ht, hsame, hall⟩ :=
        ih hu (fun node hn => ho node (List.mem_cons_of_mem _ hn)) hrest
      refine ⟨t, ?_, ht, (SameButTypes.stored hst).trans hsame, fun node => ?_⟩
      · exact (exec_bind_ok hex _).trans hex'
      · rw [hall, hget]
        by_cases h₁ : node = first <;> by_cases h₂ : node ∈ rest <;> simp [h₁, h₂]
    · have := ho first List.mem_cons_self
      rw [hnone] at this
      cases this

/-- Taking back marks changes nothing else. -/
theorem exec_unmarkAll (h : Orderly m s) (nodes : List NodeId) :
    ∃ t, exec (nodes.forM unmark) s = (.ok (), t) ∧ Orderly m t ∧ SameButTypes s t ∧
      ∀ node, t.get? .effectiveType node =
        if node ∈ nodes ∧ s.get? .effectiveType node = some .inProgress then none
        else s.get? .effectiveType node := by
  induction nodes generalizing s with
  | nil => exact ⟨s, rfl, h, .refl s, by simp⟩
  | cons first rest ih =>
    obtain ⟨u, hu⟩ : ∃ u, u = if s.get? .effectiveType first = some .inProgress then
      s.clear .effectiveType first else s := ⟨_, rfl⟩
    have hex : exec (unmark first) s = (.ok (), u) := by
      rw [hu]
      rfl
    have hu' : Orderly m u := by
      rw [hu]
      split
      · exact h.clear first
      · exact h
    have hsame : SameButTypes s u := by
      rw [hu]
      split
      · exact ⟨fun key node hk => Cache.get?_clear_of_ne (.inr hk), Cache.resolving_clear _ _⟩
      · exact .refl s
    have hget : ∀ node, u.get? .effectiveType node =
        if node = first ∧ s.get? .effectiveType node = some .inProgress then none
        else s.get? .effectiveType node := by
      intro node
      rw [hu]
      by_cases hm : s.get? .effectiveType first = some .inProgress
      · rw [if_pos hm]
        by_cases hn : node = first
        · rw [hn, Cache.get?_clear_self, if_pos ⟨rfl, hm⟩]
        · rw [Cache.get?_clear_of_ne (.inl hn), if_neg (fun hc => hn hc.1)]
      · rw [if_neg hm, if_neg]
        rintro ⟨rfl, hc⟩
        exact hm hc
    obtain ⟨t, hex', ht, hsame', hall⟩ := ih hu'
    refine ⟨t, (exec_bind_ok hex _).trans hex', ht, hsame.trans hsame', fun node => ?_⟩
    rw [hall, hget]
    by_cases h₁ : node = first <;> by_cases h₂ : node ∈ rest <;>
      by_cases h₃ : s.get? .effectiveType node = some .inProgress <;> simp_all

/-! ## Runs -/

variable (m k) in
/-- What a walk along a chain can do. -/
inductive ChainRun (start : NodeId) :
    Nat → NodeId → List NodeId → Cache → ChainWalk → Cache → Prop where
  | known {steps : Nat} {current type : NodeId} {marked : List NodeId} {s : Cache} :
      s.get? .effectiveType current = some (.done type) →
      ChainRun start steps current marked s ⟨marked, .ok type⟩ s
  | circular {steps : Nat} {current : NodeId} {marked : List NodeId} {s : Cache} :
      s.get? .effectiveType current = some .inProgress →
      ChainRun start steps current marked s ⟨marked, .error (.model (m.circularAt current))⟩ s
  | exhausted {current : NodeId} {marked : List NodeId} {s : Cache} :
      s.get? .effectiveType current = none →
      ChainRun start 0 current marked s ⟨marked, .error (.model (m.circularAt start))⟩ s
  | structured {steps : Nat} {current : NodeId} {marked : List NodeId} {s : Cache} :
      s.get? .effectiveType current = none → m.doc.hasStructure current = true →
      ChainRun start (steps + 1) current marked s ⟨marked, .ok current⟩ s
  | unmarkable {steps : Nat} {current : NodeId} {marked : List NodeId} {s t : Cache}
      {e : ResolveError} :
      s.get? .effectiveType current = none → m.doc.hasStructure current = false →
      exec (m.markChain current) s = (.error e, t) →
      ChainRun start (steps + 1) current marked s ⟨marked, .error e⟩ t
  | broken {steps : Nat} {current : NodeId} {marked : List NodeId} {s t u : Cache}
      {e : ResolveError} :
      s.get? .effectiveType current = none → m.doc.hasStructure current = false →
      exec (m.markChain current) s = (.ok (), t) →
      exec ((m.chainLink current).run k) t = (.error e, u) →
      ChainRun start (steps + 1) current marked s ⟨marked ++ [current], .error e⟩ u
  | ended {steps : Nat} {current : NodeId} {marked : List NodeId} {s t u : Cache} :
      s.get? .effectiveType current = none → m.doc.hasStructure current = false →
      exec (m.markChain current) s = (.ok (), t) →
      exec ((m.chainLink current).run k) t = (.ok none, u) →
      ChainRun start (steps + 1) current marked s ⟨marked ++ [current], .ok current⟩ u
  | link {steps : Nat} {current next : NodeId} {marked : List NodeId} {s t u v : Cache}
      {walk : ChainWalk} :
      s.get? .effectiveType current = none → m.doc.hasStructure current = false →
      exec (m.markChain current) s = (.ok (), t) →
      exec ((m.chainLink current).run k) t = (.ok (some next), u) →
      ChainRun start steps next (marked ++ [current]) u walk v →
      ChainRun start (steps + 1) current marked s walk v

theorem exec_walkChain_zero (hn : s.get? .effectiveType current = none) :
    exec (m.walkChain k start 0 current marked) s =
      (.ok ⟨marked, .error (.model (m.circularAt start))⟩, s) := by
  rw [walkChain, exec_bind_ok (exec_fact? _ _ s), hn]
  rfl

theorem exec_walkChain_known (hd : s.get? .effectiveType current = some (.done type)) :
    exec (m.walkChain k start steps current marked) s = (.ok ⟨marked, .ok type⟩, s) := by
  cases steps <;> rw [walkChain, exec_bind_ok (exec_fact? _ _ s), hd] <;> rfl

theorem exec_walkChain_circular (hm : s.get? .effectiveType current = some .inProgress) :
    exec (m.walkChain k start steps current marked) s =
      (.ok ⟨marked, .error (.model (m.circularAt current))⟩, s) := by
  cases steps <;> rw [walkChain, exec_bind_ok (exec_fact? _ _ s), hm] <;> rfl

theorem exec_walkChain_structured
    (hn : s.get? .effectiveType current = none) (hs : m.doc.hasStructure current = true) :
    exec (m.walkChain k start (steps + 1) current marked) s = (.ok ⟨marked, .ok current⟩, s) := by
  rw [walkChain, exec_bind_ok (exec_fact? _ _ s), hn]
  dsimp only
  rw [hs]
  rfl

theorem exec_walkChain_succ
    (hn : s.get? .effectiveType current = none) (hs : m.doc.hasStructure current = false) :
    exec (m.walkChain k start (steps + 1) current marked) s =
      match exec (m.markChain current) s with
      | (.error e, t) => (.ok ⟨marked, .error e⟩, t)
      | (.ok (), t) =>
        match exec ((m.chainLink current).run k) t with
        | (.error e, u) => (.ok ⟨marked ++ [current], .error e⟩, u)
        | (.ok none, u) => (.ok ⟨marked ++ [current], .ok current⟩, u)
        | (.ok (some next), u) =>
          exec (m.walkChain k start steps next (marked ++ [current])) u := by
  rw [walkChain, exec_bind_ok (exec_fact? _ _ s), hn]
  dsimp only
  rw [hs]
  simp only [Bool.false_eq_true, if_false]
  rw [exec_bind, exec_attempt]
  dsimp only
  rcases exec (m.markChain current) s with ⟨e | _, t⟩
  · rfl
  · dsimp only
    rw [exec_bind, exec_attempt]
    dsimp only
    rcases exec ((m.chainLink current).run k) t with ⟨e | _ | next, u⟩ <;> rfl

/-- Every walk along a chain is a run. -/
theorem exists_chainRun (m : Model) (k : Lookups) (start : NodeId) (steps : Nat) (current : NodeId)
    (marked : List NodeId) (s : Cache) :
    ∃ walk t, exec (m.walkChain k start steps current marked) s = (.ok walk, t) ∧
      ChainRun m k start steps current marked s walk t := by
  induction steps generalizing current marked s with
  | zero =>
    rcases hn : s.get? .effectiveType current with _ | _ | type
    · exact ⟨_, _, exec_walkChain_zero hn, .exhausted hn⟩
    · exact ⟨_, _, exec_walkChain_circular hn, .circular hn⟩
    · exact ⟨_, _, exec_walkChain_known hn, .known hn⟩
  | succ steps ih =>
    rcases hn : s.get? .effectiveType current with _ | _ | type
    · cases hs : m.doc.hasStructure current with
      | true => exact ⟨_, _, exec_walkChain_structured hn hs, .structured hn hs⟩
      | false =>
        rw [exec_walkChain_succ hn hs]
        rcases hm : exec (m.markChain current) s with ⟨e | _, t⟩
        · exact ⟨_, _, rfl, .unmarkable hn hs hm⟩
        · dsimp only
          rcases hl : exec ((m.chainLink current).run k) t with ⟨e | _ | next, u⟩
          · exact ⟨_, _, rfl, .broken hn hs hm hl⟩
          · exact ⟨_, _, rfl, .ended hn hs hm hl⟩
          · obtain ⟨walk, v, hex, hrun⟩ := ih next (marked ++ [current]) u
            exact ⟨walk, v, hex, .link hn hs hm hl hrun⟩
    · exact ⟨_, _, exec_walkChain_circular hn, .circular hn⟩
    · exact ⟨_, _, exec_walkChain_known hn, .known hn⟩

/-! ## Effective types -/

/-- The counter of walks goes up. -/
def countWalk (stats : Stats) : Stats :=
  { stats with effectiveTypeWalks := stats.effectiveTypeWalks + 1 }

/-- The nodes that get the type that a walk has found. -/
def ChainWalk.typed (node : NodeId) (walk : ChainWalk) : List NodeId :=
  if walk.marked.isEmpty then [node] else walk.marked

theorem ChainRun.marked_subset {walk : ChainWalk}
    (h : ChainRun m k start steps current marked s walk t) : marked ⊆ walk.marked := by
  induction h with
  | known | circular | exhausted | structured | unmarkable => exact List.Subset.refl _
  | broken | ended => exact List.subset_append_left _ _
  | link _ _ _ _ _ ih => exact List.Subset.trans (List.subset_append_left _ _) ih

theorem ChainRun.mem_typed {walk : ChainWalk}
    (h : ChainRun m k start steps node [] s walk t) : node ∈ walk.typed node := by
  cases h with
  | known | circular | exhausted | structured | unmarkable | broken | ended =>
    exact List.mem_singleton.mpr rfl
  | link _ _ _ _ hrest =>
    have hmem : node ∈ walk.marked := hrest.marked_subset (List.mem_singleton.mpr rfl)
    unfold ChainWalk.typed
    split
    · exact List.mem_singleton.mpr rfl
    · exact hmem

theorem exec_effectiveTypeWith_known (h : s.get? .effectiveType node = some (.done type)) :
    exec (m.effectiveTypeWith k node) s = (.ok type, s) := by
  rw [effectiveTypeWith, exec_bind_ok (exec_fact? _ _ s), h]
  rfl

theorem exec_effectiveTypeWith_circular (h : s.get? .effectiveType node = some .inProgress) :
    exec (m.effectiveTypeWith k node) s = (.error (.model (m.circularAt node)), s) := by
  rw [effectiveTypeWith, exec_bind_ok (exec_fact? _ _ s), h]
  rfl

/-- The effective type of a node without one comes from a walk. -/
theorem exec_effectiveTypeWith_walk (h : s.get? .effectiveType node = none) :
    ∃ walk t, exec (m.walkChain k node maxChainLength node []) (s.count countWalk) = (.ok walk, t) ∧
      ChainRun m k node maxChainLength node [] (s.count countWalk) walk t ∧
      exec (m.effectiveTypeWith k node) s =
        match walk.outcome with
        | .ok type =>
          match exec ((walk.typed node).forM (m.storeType type)) t with
          | (.ok _, u) => (.ok type, u)
          | (.error e, u) => (.error e, u)
        | .error e =>
          match exec (walk.marked.forM unmark) t with
          | (.ok _, u) => (.error e, u)
          | (.error e, u) => (.error e, u) := by
  obtain ⟨walk, t, hex, hrun⟩ :=
    exists_chainRun m k node maxChainLength node [] (s.count countWalk)
  refine ⟨walk, t, hex, hrun, ?_⟩
  rw [effectiveTypeWith, exec_bind_ok (exec_fact? _ _ s), h]
  dsimp only
  rw [exec_bind_ok (exec_count _ s)]
  refine (exec_bind_ok hex _).trans ?_
  cases walk.outcome with
  | ok type =>
    dsimp only
    rw [exec_bind, ChainWalk.typed]
    rcases exec (List.forM _ _) t with ⟨_ | _, u⟩ <;> rfl
  | error e =>
    dsimp only
    rw [exec_bind]
    rcases exec (List.forM _ _) t with ⟨_ | _, u⟩ <;> rfl

theorem Orderly.isSome_owner? (h : Orderly m s) {key : FactKey} {value : key.Value}
    (hv : s.get? key node = some value) : (m.doc.owner? node).isSome = true := by
  obtain ⟨entry, he, _⟩ := Cache.exists_entryAt?_of_get? hv
  rw [h.owned.owner node entry.owner (by rw [Cache.owner?, he, Option.map_some])]
  rfl

/-- A node outside every definition has no effective type. -/
theorem exec_effectiveTypeWith_outside (h : Orderly m s) (ho : m.doc.owner? node = none) :
    exec (m.effectiveTypeWith k node) s =
      (.error (.assertion (.outsideDefinitions node)), s.count countWalk) := by
  have hnone : s.get? .effectiveType node = none := by
    cases hv : s.get? .effectiveType node with
    | none => rfl
    | some value =>
      have := h.isSome_owner? hv
      rw [ho] at this
      cases this
  have hcount := h.count countWalk
  have hset : ∀ value, exec (m.ownerOf node >>=
      fun owner => setFact .effectiveType owner node value)
      (s.count countWalk) = (.error (.assertion (.outsideDefinitions node)),
        s.count countWalk) := by
    intro value
    refine exec_bind_error ?_ _
    rw [exec_ownerOf, ho]
  obtain ⟨walk, t, _, hrun, hex⟩ := exec_effectiveTypeWith_walk hnone
  rw [hex]
  cases hrun with
  | known hv => rw [Cache.get?_count, hnone] at hv; cases hv
  | circular hv => rw [Cache.get?_count, hnone] at hv; cases hv
  | structured _ _ =>
    have hstore : exec ([node].forM (m.storeType node)) (s.count countWalk) =
        (.error (.assertion (.outsideDefinitions node)), s.count countWalk) :=
      exec_bind_error (hset _) _
    dsimp only [ChainWalk.typed, List.isEmpty_nil]
    rw [if_pos rfl, hstore]
  | unmarkable _ _ hm =>
    rw [markChain, hset] at hm
    cases hm
    rfl
  | broken _ _ hm | ended _ _ hm | link _ _ hm => rw [markChain, hset] at hm; cases hm

end Model

end SchemaRefs
