import SchemaRefs.Proofs.Chains
import SchemaRefs.Proofs.Holders
import SchemaRefs.Session.Inspect

/-!
# What lookups keep

A theory says which resolutions and effective types are right, and how a lookup may fail. If the
rules of resolution respect a theory (`Theory.Lawful`), then so do all lookups, at every depth and
for every cache that agrees with it (`Theory.answers_lookups`):

* what they store and answer is right, and they fail only as the theory admits;
* they leave the marks of chains, the holders that are being resolved and the origins as they were,
  and forget nothing (`Extends`);
* they do not run out of depth, since every nested question comes from a holder that was not being
  resolved or from a chain that marks a node (`room`).
-/

namespace SchemaRefs

open CacheM

namespace Model

variable {m : Model} {s t u : Cache} {holder : NodeId} {path : Path} {site : Site}
  {topology : Topology}

/-! ## Inspecting a path -/

variable (m) in
/-- The site at a path, with the topology of its definition. -/
def siteAt? (path : Path) : Except ModelError (Topology × Site) :=
  match m.doc.pathDefinition path with
  | .error e => .error e
  | .ok definition =>
    match m.doc.buildTopology m.options definition with
    | .error e => .error (m.buildError definition e)
    | .ok (topology, _) =>
      match Site.analyze m.doc topology path with
      | .error e => .error e
      | .ok site => .ok (topology, site)

/-- What it means that a site stands at a path. -/
theorem siteAt?_eq_ok (h : m.siteAt? path = .ok (topology, site)) :
    ∃ links, m.doc.pathDefinition path = .ok site.main ∧
      m.doc.buildTopology m.options site.main = .ok (topology, links) ∧
      m.doc.Built site.main topology links ∧
      Site.analyze m.doc topology path = .ok site ∧
      site.Located m.doc topology site.main := by
  unfold siteAt? at h
  split at h
  · cases h
  · next definition hd =>
    split at h
    · cases h
    · next topology' links hb =>
      split at h
      · cases h
      · next site' ha =>
        cases h
        have hbuilt := Document.built_buildTopology hb
        have hl := Site.located_of_analyze hd hbuilt ha
        rw [hl.main]
        exact ⟨links, hd, hb, hbuilt, ha, hl⟩

theorem siteAt?_of_analyze {definition : NodeId}
    {links : List TopologyLink} (hd : m.doc.pathDefinition path = .ok definition)
    (hb : m.doc.buildTopology m.options definition = .ok (topology, links))
    (ha : Site.analyze m.doc topology path = .ok site) : m.siteAt? path = .ok (topology, site) := by
  rw [siteAt?, hd]
  dsimp only
  rw [hb]
  dsimp only
  rw [ha]

theorem owner?_holder
    (h : m.siteAt? path = .ok (topology, site)) : m.doc.owner? site.holder = some site.main := by
  obtain ⟨links, hd, _, _, _, hl⟩ := siteAt?_eq_ok h
  exact owner?_of_within (Document.isDefinition_of_pathDefinition hd) hl.holder

/-- The counter of resolutions goes up. -/
def countResolution (stats : Stats) : Stats :=
  { stats with resolutions := stats.resolutions + 1 }

variable (m) in
/-- What inspecting a path does once its site is known. -/
def inspectSite (k : Lookups) (path : Path) (topology : Topology) (site : Site) :
    CacheM Resolution := do
  match ← fact? .resolution site.holder with
  | some resolution => return resolution
  | none =>
    if site.holder ∈ (← get).resolving then throw (m.annotate site (.model (.selfDependent path)))
    else
      tryCatch (holding site.holder (m.resolveAndKeep k site.main site topology))
        fun error => throw (m.annotate site error)

variable {k : Lookups} {path : Path} {topology : Topology} {site : Site}

/-- A path without site fails in the same way in every session. -/
theorem exec_inspectWith_error (h : Orderly m s) {e : ModelError} (hp : m.siteAt? path = .error e) :
    ∃ t, (∀ k, exec (m.inspectWith k path) s = (.error (.model e), t)) ∧ Orderly m t ∧
      Steady s t := by
  unfold siteAt? at hp
  unfold inspectWith
  split at hp
  · next e' hd =>
    cases hp
    exact ⟨s, fun k => by rw [exec_bind, exec_ofExcept, hd], h, .refl s⟩
  · next definition hd =>
    have hdef := Document.isDefinition_of_pathDefinition hd
    have hfirst : exec (ofExcept (m.doc.pathDefinition path)) s = (.ok definition, s) := by
      rw [exec_ofExcept, hd]
    rcases prepare_cases h hdef with ⟨topology, links, t, hb, hex, ht, hst, _⟩ | ⟨e', hb, hex⟩
    · rw [hb] at hp
      dsimp only at hp
      split at hp
      · next e'' ha =>
        cases hp
        refine ⟨t, fun k => ?_, ht, hst⟩
        rw [exec_bind_ok hfirst, exec_bind_ok hex, exec_bind, exec_ofExcept, ha]
      · cases hp
    · rw [hb] at hp
      cases hp
      exact ⟨s, fun k => (exec_bind_ok hfirst _).trans (exec_bind_error hex _), h, .refl s⟩

theorem exec_inspectWith_prepared {t : Cache} (hp : m.siteAt? path = .ok (topology, site))
    (hprepare : exec (m.prepare site.main) s = (.ok topology, t)) :
    exec (m.inspectWith k path) s = exec (m.inspectSite k path topology site) t := by
  obtain ⟨_, hd, _, _, ha, _⟩ := siteAt?_eq_ok hp
  have hdefinition : exec (ofExcept (m.doc.pathDefinition path)) s = (.ok site.main, s) := by
    rw [exec_ofExcept, hd]
  have hanalyze : exec (ofExcept (Site.analyze m.doc topology path)) t = (.ok site, t) := by
    rw [exec_ofExcept, ha]
  unfold inspectWith
  rw [exec_bind_ok hdefinition, exec_bind_ok hprepare, exec_bind_ok hanalyze]
  rfl

variable (k) in
theorem exec_inspectWith_ok (h : Orderly m s) (hp : m.siteAt? path = .ok (topology, site)) :
    ∃ t, exec (m.prepare site.main) s = (.ok topology, t) ∧ exec (m.inspectWith k path) s =
        exec (m.inspectSite k path topology site) t ∧ Orderly m t ∧ Steady s t ∧
        t.get? .topology site.main = some topology := by
  obtain ⟨links, hd, hb, _⟩ := siteAt?_eq_ok hp
  rcases prepare_cases h (Document.isDefinition_of_pathDefinition hd) with
    ⟨topology', links', t, hb', hex, ht, hst, htop⟩ | ⟨e', hb', _⟩
  · rw [hb] at hb'
    cases hb'
    exact ⟨t, hex, exec_inspectWith_prepared hp hex, ht, hst, htop⟩
  · rw [hb] at hb'
    cases hb'

/-- While its reference is being resolved, a holder is entered, and the resolution is counted. -/
def begun (s : Cache) (holder : NodeId) : Cache :=
  (s.enter holder).count countResolution

theorem exec_inspectSite (topology : Topology) (site : Site) (s : Cache) :
    exec (m.inspectSite k path topology site) s =
      match s.get? .resolution site.holder with
      | some r => (.ok r, s)
      | none =>
        if site.holder ∈ s.resolving then
          (.error (m.annotate site (.model (.selfDependent path))), s)
        else
          match exec ((m.resolveSite site topology).run k) (begun s site.holder) with
          | (.error e, t) => (.error (m.annotate site e), t.leave site.holder)
          | (.ok r, t) =>
            if t.get? .resolution site.holder = some r then (.ok r, t.leave site.holder)
            else
              match t.set .resolution site.main site.holder r with
              | .ok u => (.ok r, u.leave site.holder)
              | .error a => (.error (.assertion a), t.leave site.holder) := by
  unfold inspectSite
  rw [exec_bind_ok (exec_fact? _ _ s)]
  cases hr : s.get? .resolution site.holder with
  | some r => rfl
  | none =>
    dsimp only
    rw [exec_bind_ok (exec_get s)]
    split
    · rfl
    · rw [exec_tryCatch, exec_holding, resolveAndKeep, exec_getOrCompute, Cache.get?_enter, hr]
      dsimp only
      have hcount : exec (do
          count fun stats => { stats with resolutions := stats.resolutions + 1 }
          (m.resolveSite site topology).run k) (s.enter site.holder) =
          exec ((m.resolveSite site topology).run k) (begun s site.holder) :=
        exec_bind_ok (exec_count _ _) _
      rw [hcount]
      rcases exec ((m.resolveSite site topology).run k) (begun s site.holder) with ⟨e | r, t⟩
      · rfl
      · dsimp only
        by_cases hk : t.get? .resolution site.holder = some r
        · simp only [if_pos hk]
        · simp only [if_neg hk]
          cases t.set .resolution site.main site.holder r <;> rfl

/-! ## Frames -/

/-- Marks, origins, the holders that are being resolved and their resolutions are as they were, and
nothing is forgotten. -/
structure Extends (s t : Cache) : Prop where
  marks : ∀ node, t.get? .effectiveType node = some .inProgress ↔
    s.get? .effectiveType node = some .inProgress
  held : ∀ holder ∈ s.resolving, t.get? .resolution holder = s.get? .resolution holder
  origins : ∀ node, t.get? .origin node = s.get? .origin node
  remembers : Remembers s t
  resolving : t.resolving = s.resolving

theorem Extends.refl (s : Cache) : Extends s s :=
  ⟨fun _ => .rfl, fun _ _ => rfl, fun _ => rfl, .refl s, rfl⟩

theorem Extends.trans (s t u : Cache) (h : Extends s t) (h' : Extends t u) : Extends s u :=
  ⟨fun node => (h'.marks node).trans (h.marks node),
    fun holder hh => (h'.held holder (h.resolving ▸ hh)).trans (h.held holder hh),
    fun node => (h'.origins node).trans (h.origins node), h.remembers.trans h'.remembers,
    h'.resolving.trans h.resolving⟩

theorem Extends.steady (h : Steady s t) : Extends s t := by
  refine ⟨fun node => ?_, fun holder _ => h.same .resolution holder rfl (by decide),
    fun node => h.same .origin node rfl (by decide), h.remembers, h.resolving⟩
  rw [h.same .effectiveType node rfl (by decide)]

theorem Extends.count (s : Cache) (f : Stats → Stats) : Extends s (s.count f) :=
  ⟨fun _ => .rfl, fun _ _ => rfl, fun _ => rfl, .refl s, rfl⟩

theorem Extends.leave (h : Extends (begun s holder) t) :
    Extends s (t.leave holder) := by
  refine ⟨h.marks, fun other ho => h.held other (List.mem_cons_of_mem holder ho), h.origins,
    h.remembers, ?_⟩
  have hentered : t.resolving = holder :: s.resolving := h.resolving
  rw [Cache.leave, hentered]
  exact List.erase_cons_head holder s.resolving

theorem Extends.kept {owner : NodeId} {r : Resolution} (hs : s.Stored .resolution owner holder r t)
    (hnew : s.get? .resolution holder = none) (hh : holder ∉ s.resolving) : Extends s t := by
  refine ⟨fun node => ?_, fun other ho => ?_, fun node => hs.get?_of_ne (.inr (by decide)),
    .stored hs fun old hold => ?_, hs.resolving_eq⟩
  · rw [hs.get?_of_ne (.inr (by decide))]
  · exact hs.get?_of_ne (.inl fun heq => hh (heq ▸ ho))
  · rw [hnew] at hold
    cases hold

/-! ## Room for nested questions -/

theorem countP_lt_of_imp {p q : Nat → Bool} {l : List Nat} (h : ∀ x ∈ l, q x = true → p x = true)
    {x : Nat} (hx : x ∈ l) (hp : p x = true) (hq : q x = false) : l.countP q < l.countP p := by
  induction l with
  | nil => cases hx
  | cons y rest ih =>
    have hrest : rest.countP q ≤ rest.countP p :=
      List.countP_mono_left fun z hz => h z (List.mem_cons_of_mem _ hz)
    rw [List.countP_cons, List.countP_cons]
    rcases List.mem_cons.mp hx with rfl | hx
    · rw [hp, hq]
      simp only [if_true, Bool.false_eq_true, if_false]
      omega
    · have hlt := ih (fun z hz => h z (List.mem_cons_of_mem _ hz)) hx
      split
      · next hy =>
        rw [if_pos (h y List.mem_cons_self hy)]
        exact Nat.succ_lt_succ hlt
      · exact Nat.lt_of_lt_of_le hlt (Nat.le_add_right _ _)

variable (m) in
/-- The number of nodes without mark. -/
def unmarked (s : Cache) : Nat :=
  (List.range m.doc.size).countP fun node => s.get? .effectiveType node ≠ some .inProgress

variable (m) in
/-- The number of nodes that hold no reference that is being resolved. -/
def unresolved (s : Cache) : Nat :=
  (List.range m.doc.size).countP fun node => node ∉ s.resolving

variable (m) in
/-- The number of questions that can still be nested. -/
def room (s : Cache) : Nat :=
  m.unresolved s + m.unmarked s

theorem unmarked_congr (h : ∀ node, t.get? .effectiveType node = some .inProgress ↔
    s.get? .effectiveType node = some .inProgress) : m.unmarked t = m.unmarked s := by
  unfold unmarked
  congr 1
  funext node
  exact decide_eq_decide.mpr (not_congr (h node))

theorem Extends.room_eq (h : Extends s t) : m.room t = m.room s := by
  rw [room, room, unmarked_congr h.marks, unresolved, unresolved, h.resolving]

theorem room_begun (hh : holder < m.doc.size) (hn : holder ∉ s.resolving) :
    m.room (begun s holder) < m.room s := by
  have : m.unresolved (begun s holder) < m.unresolved s := by
    refine countP_lt_of_imp (fun x _ hx => ?_) (List.mem_range.mpr hh) (by simpa using hn)
      (by simp [begun, Cache.enter, Cache.count])
    simp only [begun, Cache.enter, Cache.count, List.mem_cons, not_or, decide_eq_true_eq] at hx ⊢
    exact hx.2
  exact Nat.add_lt_add_right this (m.unmarked s)

theorem room_mark {owner node : NodeId} (hn : node < m.doc.size)
    (hs : s.get? .effectiveType node = none)
    (ht : s.Stored .effectiveType owner node .inProgress t) :
    m.room t < m.room s := by
  have : m.unmarked t < m.unmarked s := by
    refine countP_lt_of_imp (fun x _ hx => ?_) (List.mem_range.mpr hn) (by simp [hs])
      (by simp [ht.get?_self])
    by_cases hxn : x = node
    · rw [hxn, hs]
      rfl
    · rw [ht.get?_of_ne (.inl hxn)] at hx
      exact hx
  rw [room, room, unresolved, unresolved, ht.resolving_eq]
  exact Nat.add_lt_add_left this _

theorem room_le (s : Cache) : m.room s < m.nesting := by
  have h₁ : m.unresolved s ≤ m.doc.size :=
    Nat.le_trans List.countP_le_length (Nat.le_of_eq List.length_range)
  have h₂ : m.unmarked s ≤ m.doc.size :=
    Nat.le_trans List.countP_le_length (Nat.le_of_eq List.length_range)
  unfold room nesting
  omega

/-! ## Theories -/

/-- Which questions about a model are asked, which answers are right, and which assertions may
fail. -/
structure Theory (m : Model) where
  path : Path → Prop
  node : NodeId → Prop
  /-- The resolution is right for a holder. -/
  kept : NodeId → Resolution → Prop
  /-- The effective type is right for a node. -/
  typed : NodeId → NodeId → Prop
  assertion : Assertion → Prop

namespace Theory

variable (T : Theory m) {walk : ChainWalk} {new : List NodeId} {k : Lookups} {depth : Nat}
  {current node owner : NodeId}

/-- The resolution is right for the site at a path. -/
def Resolves (path : Path) (r : Resolution) : Prop :=
  ∃ topology site, m.siteAt? path = .ok (topology, site) ∧ T.kept site.holder r

/-- The effective type is right for a node that has one. -/
def Types (node type : NodeId) : Prop :=
  (m.doc.owner? node).isSome = true ∧ T.typed node type

/-- A failure that the theory admits; documents may be wrong in every way. -/
def Fails : ResolveError → Prop
  | .model _ => True
  | .assertion cause => T.assertion cause

/-- The theory as a contract of inquiries. -/
def contract : Contract where
  path := T.path
  node := T.node
  resolution := T.Resolves
  type := T.Types
  error := T.Fails

/-- What the link of a chain has to do with the effective type of its node. -/
def Links (node : NodeId) : Option NodeId → Prop
  | none => T.typed node node
  | some next => T.node next ∧ ∀ type, T.typed next type → T.typed node type

/-- The rules of resolution respect the theory. -/
structure Lawful : Prop where
  site : ∀ path topology site, T.path path → m.siteAt? path = .ok (topology, site) →
    (m.resolveSite site topology).Meets T.contract (T.kept site.holder)
  structured : ∀ node, T.node node → m.doc.hasStructure node = true → T.typed node node
  link : ∀ node, T.node node → (m.doc.owner? node).isSome = true →
    m.doc.hasStructure node = false → (m.chainLink node).Meets T.contract (T.Links node)
  outside : ∀ node, T.node node → m.doc.owner? node = none →
    T.assertion (.outsideDefinitions node)

/-- The cache is orderly, and all that it knows is right. -/
structure Agrees (s : Cache) : Prop where
  orderly : Orderly m s
  kept : ∀ holder r, s.get? .resolution holder = some r → T.kept holder r
  typed : ∀ node type, s.get? .effectiveType node = some (.done type) → T.typed node type

/-- A cache that agrees with the theory, with room for questions to a given depth. -/
structure Ready (depth : Nat) (s : Cache) : Prop where
  agrees : T.Agrees s
  room : m.room s < depth

/-- The answers are right, and leave what they have to. -/
structure Answers (depth : Nat) (k : Lookups) : Prop where
  inspect : ∀ path, T.path path →
    Keeps (T.Ready depth) Extends T.Fails (T.Resolves path) (k.inspect path)
  effectiveType : ∀ node, T.node node →
    Keeps (T.Ready depth) Extends T.Fails (T.Types node) (k.effectiveType node)

variable {T}

theorem Agrees.count (h : T.Agrees s) (f : Stats → Stats) : T.Agrees (s.count f) :=
  ⟨h.orderly.count f, h.kept, h.typed⟩

theorem Agrees.enter (h : T.Agrees s) (holder : NodeId) : T.Agrees (s.enter holder) :=
  ⟨h.orderly.enter holder, h.kept, h.typed⟩

theorem Agrees.leave (h : T.Agrees s) (holder : NodeId) : T.Agrees (s.leave holder) :=
  ⟨h.orderly.leave holder, h.kept, h.typed⟩

theorem Agrees.steady (h : T.Agrees s) (ho : Orderly m t) (hst : Steady s t) : T.Agrees t := by
  refine ⟨ho, fun holder r hr => h.kept holder r ?_, fun node type ht => h.typed node type ?_⟩
  · rwa [hst.same .resolution holder rfl (by decide)] at hr
  · rwa [hst.same .effectiveType node rfl (by decide)] at ht

theorem fails_annotate {site : Site} {e : ResolveError} (h : T.Fails e) :
    T.Fails (m.annotate site e) := by
  cases e with
  | model e => trivial
  | assertion cause => exact h

theorem Answers.run (h : T.Answers depth k) {α : Type}
    {x : Inquiry α} {post : α → Prop} (hx : x.Meets T.contract post) :
    Keeps (T.Ready depth) Extends T.Fails post (x.run k) :=
  Keeps.run (Extends.refl) Extends.trans h.inspect h.effectiveType hx

/-! ## Inspecting keeps the theory -/

/-- The resolution of a holder is stored when it is found. -/
theorem Agrees.keep {holder : NodeId} {r : Resolution} (h : T.Agrees s)
    (ho : m.doc.owner? holder = some owner) (hr : T.kept holder r)
    (hst : s.Stored .resolution owner holder r t) : T.Agrees t := by
  refine ⟨h.orderly.stored hst ho rfl (by decide), fun other r' hr' => ?_, fun node type ht => ?_⟩
  · by_cases hh : other = holder
    · rw [hh, hst.get?_self] at hr'
      cases hr'
      rw [hh]
      exact hr
    · rw [hst.get?_of_ne (.inl hh)] at hr'
      exact h.kept other r' hr'
  · rw [hst.get?_of_ne (.inr (by decide))] at ht
    exact h.typed node type ht

theorem Ready.begun (hs : T.Ready (depth + 1) s)
    (hsite : m.siteAt? path = .ok (topology, site)) (hfree : site.holder ∉ s.resolving) :
    T.Ready depth (begun s site.holder) := by
  have hsize : site.holder < m.doc.size := Document.lt_size_of_owner? (owner?_holder hsite)
  exact ⟨(hs.agrees.enter _).count _,
    Nat.lt_of_lt_of_le (room_begun hsize hfree) (Nat.le_of_lt_succ hs.room)⟩

/-- A site that has no resolution yet, and is not being resolved, gets what its rules come to. -/
theorem exec_inspectSite_new (hT : T.Lawful) (hk : T.Answers depth k) (hpath : T.path path)
    (hsite : m.siteAt? path = .ok (topology, site)) (hs : T.Ready (depth + 1) s)
    (hnone : s.get? .resolution site.holder = none) (hfree : site.holder ∉ s.resolving) :
    ∃ t, exec (m.inspectSite k path topology site) s =
        ((exec ((m.resolveSite site topology).run k) (begun s site.holder)).1.mapError
          (m.annotate site), t) ∧
      T.Agrees t ∧ Extends s t ∧
      Remembers (exec ((m.resolveSite site topology).run k) (begun s site.holder)).2 t := by
  obtain ⟨⟨hagree, _⟩, hext, hend⟩ :=
    hk.run (hT.site path topology site hpath hsite) _ (hs.begun hsite hfree)
  rw [exec_inspectSite, hnone]
  dsimp only
  rw [if_neg hfree]
  rcases hex : exec ((m.resolveSite site topology).run k) (begun s site.holder) with ⟨e | r, t⟩
  all_goals
    rw [hex] at hagree hext hend
    have hleft := hext.leave
  · exact ⟨_, rfl, hagree.leave _, hleft, .refl t⟩
  · -- nobody stores the resolution of a holder that is being resolved, so it can be stored now
    have howner := owner?_holder hsite
    have hnew : t.get? .resolution site.holder = none :=
      (hext.held _ List.mem_cons_self).trans hnone
    obtain ⟨u, hset, hst⟩ := hagree.orderly.owned.set_new r howner hnew
    dsimp only
    rw [if_neg (by rw [hnew]; exact fun h => by cases h), hset]
    have hfree' : site.holder ∉ (t.leave site.holder).resolving := by
      rw [hleft.resolving]
      exact hfree
    have hkept : Extends (t.leave site.holder) (u.leave site.holder) :=
      .kept (hst.leave site.holder) hnew hfree'
    exact ⟨_, rfl, (hagree.leave _).keep howner hend (hst.leave site.holder),
      hleft.trans _ _ _ hkept, hkept.remembers⟩

theorem keeps_inspectSite (hT : T.Lawful) (hk : T.Answers depth k)
    (hpath : T.path path) (hsite : m.siteAt? path = .ok (topology, site)) :
    Keeps (T.Ready (depth + 1)) Extends T.Fails (T.Resolves path)
      (m.inspectSite k path topology site) := by
  intro s hs
  cases hget : s.get? .resolution site.holder with
  | some r =>
    rw [exec_inspectSite, hget]
    exact ⟨hs, .refl _, topology, site, hsite, hs.agrees.kept _ _ hget⟩
  | none =>
    by_cases hfree : site.holder ∈ s.resolving
    · rw [exec_inspectSite, hget]
      dsimp only
      rw [if_pos hfree]
      exact ⟨hs, .refl _, trivial⟩
    · obtain ⟨t, hex, hagree, hext, _⟩ := exec_inspectSite_new hT hk hpath hsite hs hget hfree
      obtain ⟨_, _, hend⟩ :=
        hk.run (hT.site path topology site hpath hsite) _ (hs.begun hsite hfree)
      rw [hex]
      refine ⟨⟨hagree, hext.room_eq ▸ hs.room⟩, hext, ?_⟩
      cases hrun : (exec ((m.resolveSite site topology).run k) (begun s site.holder)).1 with
      | error e =>
        rw [hrun] at hend
        exact fails_annotate hend
      | ok r =>
        rw [hrun] at hend
        exact ⟨topology, site, hsite, hend⟩

theorem keeps_inspectWith (hT : T.Lawful) (hk : T.Answers depth k) (hpath : T.path path) :
    Keeps (T.Ready (depth + 1)) Extends T.Fails (T.Resolves path)
      (m.inspectWith k path) := by
  intro s hs
  cases hsite : m.siteAt? path with
  | error e =>
    obtain ⟨t, hex, ht, hst⟩ := exec_inspectWith_error hs.agrees.orderly hsite
    have hext := Extends.steady hst
    rw [hex]
    exact ⟨⟨hs.agrees.steady ht hst, hext.room_eq ▸ hs.room⟩, hext, trivial⟩
  | ok found =>
    obtain ⟨topology, site⟩ := found
    obtain ⟨t, _, hex, ht, hst, _⟩ := exec_inspectWith_ok k hs.agrees.orderly hsite
    have hext := Extends.steady hst
    rw [hex]
    obtain ⟨hready, hext', hend⟩ := keeps_inspectSite hT hk hpath hsite t
      ⟨hs.agrees.steady ht hst, hext.room_eq ▸ hs.room⟩
    exact ⟨hready, hext.trans _ _ _ hext', hend⟩

/-! ## Chains keep the theory -/

/-- Nodes have been marked; the rest of the frame is as it was. -/
structure Marks (new : List NodeId) (s t : Cache) : Prop where
  marks : ∀ node, t.get? .effectiveType node = some .inProgress ↔
    s.get? .effectiveType node = some .inProgress ∨ node ∈ new
  held : ∀ holder ∈ s.resolving, t.get? .resolution holder = s.get? .resolution holder
  origins : ∀ node, t.get? .origin node = s.get? .origin node
  remembers : Remembers s t
  resolving : t.resolving = s.resolving

theorem Marks.nil (s : Cache) : Marks [] s s :=
  ⟨fun _ => by simp, fun _ _ => rfl, fun _ => rfl, .refl s, rfl⟩

theorem Marks.cons {v : Cache} (hn : s.get? .effectiveType node = none)
    (hst : s.Stored .effectiveType owner node .inProgress t) (he : Extends t u)
    (h : Marks new u v) : Marks (node :: new) s v := by
  have hsame := SameButTypes.stored hst
  have hnone : ∀ old, s.get? .effectiveType node = some old → old = .inProgress := by
    intro old hold
    rw [hn] at hold
    cases hold
  refine ⟨fun other => ?_, fun holder hh => ?_, fun other => ?_,
    (Remembers.stored hst hnone).trans (he.remembers.trans h.remembers),
    h.resolving.trans (he.resolving.trans hst.resolving_eq)⟩
  · rw [h.marks, he.marks, List.mem_cons]
    by_cases ho : other = node
    · rw [ho, hst.get?_self]
      simp
    · rw [hst.get?_of_ne (.inl ho)]
      simp [ho]
  · have hmarked : holder ∈ t.resolving := by rwa [hst.resolving_eq]
    have hasked : holder ∈ u.resolving := by rwa [he.resolving]
    rw [h.held holder hasked, he.held holder hmarked, hsame.same _ _ (by decide)]
  · rw [h.origins, he.origins, hsame.same _ _ (by decide)]

/-- How a walk ends, for the node where it begins and for the nodes that it marks. -/
def WalkEnds (T : Theory m) (current : NodeId) (new : List NodeId) :
    Except ResolveError NodeId → Prop
  | .ok type => T.typed current type ∧ ∀ node ∈ new, T.typed node type
  | .error e => T.Fails e

/-- The marks of a walk, and how it ends. -/
structure Walked (T : Theory m) (current : NodeId) (marked new : List NodeId)
    (s : Cache) (walk : ChainWalk) (t : Cache) : Prop where
  marked_eq : walk.marked = marked ++ new
  agrees : T.Agrees t
  marks : Marks new s t
  fresh : ∀ node ∈ new, (m.doc.owner? node).isSome = true ∧
    s.get? .effectiveType node ≠ some .inProgress
  unchanged : new = [] → t = s
  ends : WalkEnds T current new walk.outcome

theorem Agrees.marked (h : T.Agrees s) (ht : Orderly m t)
    (hst : s.Stored .effectiveType owner node .inProgress t) : T.Agrees t := by
  refine ⟨ht, fun holder r hr => h.kept holder r ?_, fun other type ho => ?_⟩
  · rwa [hst.get?_of_ne (.inr (by decide))] at hr
  · by_cases hn : other = node
    · rw [hn, hst.get?_self] at ho
      cases ho
    · rw [hst.get?_of_ne (.inl hn)] at ho
      exact h.typed other type ho

theorem Walked.nil {marked : List NodeId} {outcome : Except ResolveError NodeId}
    (h : T.Agrees s) (he : WalkEnds T current [] outcome) :
    Walked T current marked [] s ⟨marked, outcome⟩ s :=
  ⟨by simp, h, .nil s, by simp, fun _ => rfl, he⟩

/-- A node without effective type is marked, and the link of its chain is asked for. -/
theorem link_cases (hT : T.Lawful) (hk : T.Answers depth k) (hnode : T.node current)
    (hs : T.Ready (depth + 1) s) (hn : s.get? .effectiveType current = none)
    (hc : m.doc.hasStructure current = false) (hm : exec (m.markChain current) s = (.ok (), t)) :
    ∃ owner, m.doc.owner? current = some owner ∧
      s.Stored .effectiveType owner current .inProgress t ∧ T.Ready depth t ∧
      ∀ result u, exec ((m.chainLink current).run k) t = (result, u) →
        T.Ready (depth + 1) u ∧ Extends t u ∧ Ends T.Fails (T.Links current) result := by
  obtain ⟨owner, ho, hst, ht⟩ := stored_of_markChain hs.agrees.orderly hn hm
  have hroom : m.room t < depth :=
    Nat.lt_of_lt_of_le (room_mark (Document.lt_size_of_owner? ho) hn hst)
      (Nat.le_of_lt_succ hs.room)
  have hready : T.Ready depth t := ⟨hs.agrees.marked ht hst, hroom⟩
  refine ⟨owner, ho, hst, hready, fun result u hlink => ?_⟩
  obtain ⟨hready', hext, hend⟩ := hk.run (hT.link current hnode (by rw [ho]; rfl) hc) t hready
  rw [hlink] at hready' hext hend
  exact ⟨⟨hready'.agrees, Nat.lt_succ_of_lt hready'.room⟩, hext, hend⟩

theorem walked_chainRun (hT : T.Lawful) (hk : T.Answers depth k)
    {start : NodeId} {steps : Nat} {marked : List NodeId}
    (h : ChainRun m k start steps current marked s walk t) (hs : T.Ready (depth + 1) s)
    (hnode : T.node current) : ∃ new, Walked T current marked new s walk t := by
  induction h with
  | known hdone => exact ⟨[], .nil hs.agrees ⟨hs.agrees.typed _ _ hdone, by simp⟩⟩
  | circular hmark => exact ⟨[], .nil hs.agrees trivial⟩
  | exhausted hn => exact ⟨[], .nil hs.agrees trivial⟩
  | structured hn hc => exact ⟨[], .nil hs.agrees ⟨hT.structured _ hnode hc, by simp⟩⟩
  | unmarkable hn hc hm =>
    obtain ⟨ho, rfl, rfl⟩ := outside_of_markChain hs.agrees.orderly hn hm
    exact ⟨[], .nil hs.agrees (hT.outside _ hnode ho)⟩
  | broken hn hc hm hlink =>
    obtain ⟨owner, ho, hst, _, hrun⟩ := link_cases hT hk hnode hs hn hc hm
    obtain ⟨hready, hext, hend⟩ := hrun _ _ hlink
    exact ⟨_, ⟨rfl, hready.agrees, .cons hn hst hext (.nil _), by simp [ho, hn], by simp, hend⟩⟩
  | ended hn hc hm hlink =>
    obtain ⟨owner, ho, hst, _, hrun⟩ := link_cases hT hk hnode hs hn hc hm
    obtain ⟨hready, hext, hend⟩ := hrun _ _ hlink
    refine ⟨_, ⟨rfl, hready.agrees, .cons hn hst hext (.nil _), by simp [ho, hn],
      by simp, hend, ?_⟩⟩
    intro node hmem
    rw [List.mem_singleton.mp hmem]
    exact hend
  | @link steps current next marked s t u v walk hn hc hm hlink _ ih =>
    obtain ⟨owner, ho, hst, _, hrun⟩ := link_cases hT hk hnode hs hn hc hm
    obtain ⟨hready, hext, hend⟩ := hrun _ _ hlink
    obtain ⟨new, hw⟩ := ih hready hend.1
    refine ⟨current :: new, by rw [hw.marked_eq]; simp, hw.agrees,
      .cons hn hst hext hw.marks, ?_, by simp, ?_⟩
    · intro node hmem
      rcases List.mem_cons.mp hmem with rfl | hmem
      · simp [ho, hn]
      · refine ⟨(hw.fresh node hmem).1, fun hmark => (hw.fresh node hmem).2 ?_⟩
        -- marks that were there before the walk are there all along
        rw [hext.marks]
        by_cases heq : node = current
        · rw [heq, hst.get?_self]
        · rw [hst.get?_of_ne (.inl heq), hmark]
    · have hends := hw.ends
      cases hout : walk.outcome with
      | error e => rw [hout] at hends; exact hends
      | ok type =>
        rw [hout] at hends
        have hcur : T.typed current type := hend.2 type hends.1
        refine ⟨hcur, fun node hmem => ?_⟩
        rcases List.mem_cons.mp hmem with rfl | hmem
        · exact hcur
        · exact hends.2 node hmem

/-! ## Effective types keep the theory -/

/-- A walk is over when all that differs from its last cache are effective types: those that are
there agree with the theory, the marks are the ones from before the walk, and nothing from before it
is lost. -/
theorem Walked.over
    (h : Walked T node [] new s walk t) (hu : Orderly m u) (hsame : SameButTypes t u)
    (htyped : ∀ other type, u.get? .effectiveType other = some (.done type) → T.typed other type)
    (hmarks : ∀ other, u.get? .effectiveType other = some .inProgress ↔
      s.get? .effectiveType other = some .inProgress)
    (hkept : ∀ other state, s.get? .effectiveType other = some state →
      u.get? .effectiveType other = some state) : T.Agrees u ∧ Extends s u := by
  refine ⟨⟨hu, fun holder r hr => ?_, htyped⟩, hmarks, fun holder hh => ?_, fun other => ?_,
    h.marks.remembers.types hsame hkept, hsame.resolving.trans h.marks.resolving⟩
  · rw [hsame.same _ _ (by decide)] at hr
    exact h.agrees.kept holder r hr
  · rw [hsame.same _ _ (by decide), h.marks.held holder hh]
  · rw [hsame.same _ _ (by decide), h.marks.origins]

theorem Walked.mem_typed_iff {other : NodeId} (h : Walked T node [] new s walk t) :
    other ∈ walk.typed node ↔ other ∈ new ∨ (new = [] ∧ other = node) := by
  have hmarked : walk.marked = new := by rw [h.marked_eq, List.nil_append]
  unfold ChainWalk.typed
  rw [hmarked]
  cases new <;> simp

/-- Before the walk, a node that gets a type was not marked, and after it, it is marked or has no
type. -/
theorem Walked.of_mem_typed {type : NodeId}
    (h : Walked T node [] new s walk t) (hs : s.get? .effectiveType node = none)
    (ho : (m.doc.owner? node).isSome = true) (hout : walk.outcome = .ok type) :
    ∀ other ∈ walk.typed node, (m.doc.owner? other).isSome = true ∧
      s.get? .effectiveType other ≠ some .inProgress ∧ T.typed other type ∧
      (t.get? .effectiveType other = none ∨ t.get? .effectiveType other = some .inProgress) := by
  intro other hother
  have hends := h.ends
  rw [hout] at hends
  rcases h.mem_typed_iff.mp hother with hnew | ⟨hempty, rfl⟩
  · obtain ⟨howner, hfresh⟩ := h.fresh other hnew
    exact ⟨howner, hfresh, hends.2 other hnew, .inr ((h.marks.marks other).mpr (.inr hnew))⟩
  · rw [h.unchanged hempty, hs]
    exact ⟨ho, by simp, hends.1, .inl rfl⟩

/-- A walk that found a type: the type is stored for all nodes that were marked. -/
theorem Walked.store {type : NodeId}
    (h : Walked T node [] new s walk t) (hs : s.get? .effectiveType node = none)
    (ho : (m.doc.owner? node).isSome = true) (hout : walk.outcome = .ok type) :
    ∃ u, exec ((walk.typed node).forM (m.storeType type)) t = (.ok (), u) ∧ T.Agrees u ∧
      Extends s u ∧ ∀ other ∈ walk.typed node, u.get? .effectiveType other = some (.done type) := by
  have hnodes := h.of_mem_typed hs ho hout
  obtain ⟨u, hex, hu, hsame, hget⟩ := exec_storeTypes h.agrees.orderly
    (fun other hother => (hnodes other hother).1) fun other hother old hold => by
      rcases (hnodes other hother).2.2.2 with hnone | hmark
      · rw [hnone] at hold
        cases hold
      · rw [hmark] at hold
        exact .inl (Option.some.inj hold).symm
  have hover : T.Agrees u ∧ Extends s u := by
    refine h.over hu hsame (fun other ty hty => ?_) (fun other => ?_) fun other state hstate => ?_
    · rw [hget] at hty
      split at hty
      · next hother =>
        cases hty
        exact (hnodes other hother).2.2.1
      · exact h.agrees.typed other ty hty
    · rw [hget]
      split
      · next hother => simp [(hnodes other hother).2.1]
      · next hother =>
        rw [h.marks.marks]
        exact or_iff_left fun hnew => hother (h.mem_typed_iff.mpr (.inl hnew))
    · have hafter := h.marks.remembers .effectiveType other state hstate
      rw [hget]
      split
      · next hother =>
        obtain ⟨_, hunmarked, _, hnone | hmark⟩ := hnodes other hother
        · rw [hnone] at hafter
          cases hafter
        · rw [hmark] at hafter
          cases hafter
          exact absurd hstate hunmarked
      · exact hafter
  exact ⟨u, hex, hover.1, hover.2, fun other hother => (hget other).trans (if_pos hother)⟩

/-- A walk that failed leaves no mark. -/
theorem Walked.unmark (h : Walked T node [] new s walk t) :
    ∃ u, exec (walk.marked.forM unmark) t = (.ok (), u) ∧ T.Agrees u ∧ Extends s u := by
  obtain ⟨u, hex, hu, hsame, hget⟩ := exec_unmarkAll h.agrees.orderly walk.marked
  have hmarked : walk.marked = new := by rw [h.marked_eq, List.nil_append]
  refine ⟨u, hex, h.over hu hsame (fun other type ht => ?_) (fun other => ?_)
    fun other state hstate => ?_⟩
  · rw [hget] at ht
    split at ht
    · cases ht
    · exact h.agrees.typed other type ht
  · rw [hget, hmarked]
    by_cases hother : other ∈ new
    · have hmark := (h.marks.marks other).mpr (.inr hother)
      rw [if_pos ⟨hother, hmark⟩]
      simp [(h.fresh other hother).2]
    · rw [if_neg (fun hc => hother hc.1), h.marks.marks]
      exact or_iff_left hother
  · have hafter := h.marks.remembers .effectiveType other state hstate
    rw [hget, hmarked, if_neg, hafter]
    rintro ⟨hother, hmark⟩
    rw [hmark] at hafter
    cases hafter
    exact (h.fresh other hother).2 hstate

/-- The effective type of a node that has none yet is what the walk along its chain comes to. If
that is a type, the node has it from then on. -/
theorem exec_effectiveTypeWith_new (hT : T.Lawful) (hk : T.Answers depth k)
    (hnode : T.node node) (hs : T.Ready (depth + 1) s)
    (ho : (m.doc.owner? node).isSome = true) (hnone : s.get? .effectiveType node = none) :
    ∃ walk t u, ChainRun m k node maxChainLength node [] (s.count countWalk) walk t ∧
      exec (m.effectiveTypeWith k node) s = (walk.outcome, u) ∧ T.Agrees u ∧ Extends s u ∧
      Ends T.Fails (fun type => u.get? .effectiveType node = some (.done type)) walk.outcome := by
  obtain ⟨walk, t, _, hrun, hex⟩ := exec_effectiveTypeWith_walk hnone
  have hcount := Extends.count s countWalk
  obtain ⟨new, hw⟩ := walked_chainRun hT hk hrun ⟨hs.agrees.count _, hcount.room_eq ▸ hs.room⟩ hnode
  have hends := hw.ends
  rw [hex]
  cases hout : walk.outcome with
  | error e =>
    obtain ⟨u, hu, hagree, hext⟩ := hw.unmark
    rw [hout] at hends
    refine ⟨walk, t, u, hrun, ?_, hagree, hcount.trans _ _ _ hext, ?_⟩
    · dsimp only
      rw [hu, hout]
    · rw [hout]
      exact hends
  | ok type =>
    obtain ⟨u, hu, hagree, hext, hkept⟩ := hw.store hnone ho hout
    refine ⟨walk, t, u, hrun, ?_, hagree, hcount.trans _ _ _ hext, ?_⟩
    · dsimp only
      rw [hu, hout]
    · rw [hout]
      exact hkept node hrun.mem_typed

theorem keeps_effectiveTypeWith (hT : T.Lawful) (hk : T.Answers depth k) (hnode : T.node node) :
    Keeps (T.Ready (depth + 1)) Extends T.Fails (T.Types node)
      (m.effectiveTypeWith k node) := by
  intro s hs
  have hready : ∀ {t}, T.Agrees t → Extends s t → T.Ready (depth + 1) t :=
    fun ht hext => ⟨ht, hext.room_eq ▸ hs.room⟩
  cases ho : m.doc.owner? node with
  | none =>
    have hcount := Extends.count s countWalk
    rw [exec_effectiveTypeWith_outside hs.agrees.orderly ho]
    exact ⟨hready (hs.agrees.count _) hcount, hcount, hT.outside node hnode ho⟩
  | some owner =>
    have ho' : (m.doc.owner? node).isSome = true := by rw [ho]; rfl
    rcases hstate : s.get? .effectiveType node with _ | _ | type
    · obtain ⟨walk, t, u, _, hex, hagree, hext, hends⟩ :=
        exec_effectiveTypeWith_new hT hk hnode hs ho' hstate
      rw [hex]
      refine ⟨hready hagree hext, hext, ?_⟩
      cases hout : walk.outcome with
      | error e =>
        rw [hout] at hends
        exact hends
      | ok type =>
        rw [hout] at hends
        exact ⟨ho', hagree.typed node type hends⟩
    · rw [exec_effectiveTypeWith_circular hstate]
      exact ⟨hs, .refl _, trivial⟩
    · rw [exec_effectiveTypeWith_known hstate]
      exact ⟨hs, .refl _, ho', hs.agrees.typed node type hstate⟩

/-- Lookups respect a theory that the rules respect. -/
theorem answers_lookups (hT : T.Lawful) (depth : Nat) : T.Answers depth (m.lookups depth) := by
  induction depth with
  | zero =>
    exact ⟨fun _ _ _ hs => absurd hs.room (Nat.not_lt_zero _),
      fun _ _ _ hs => absurd hs.room (Nat.not_lt_zero _)⟩
  | succ depth ih =>
    exact ⟨fun path hpath => keeps_inspectWith hT ih hpath,
      fun node hnode => keeps_effectiveTypeWith hT ih hnode⟩

/-- Questions that no other question is waiting for never run out of room. -/
theorem answers_ask (hT : T.Lawful) : T.Answers m.nesting m.ask :=
  answers_lookups hT _

/-! ## Refinement -/

/-- The theory is lawful, and says at least as much as another one about the same questions. -/
structure Refines (T T₀ : Theory m) : Prop where
  lawful : T.Lawful
  path : ∀ path, T₀.path path → T.path path
  node : ∀ node, T₀.node node → T.node node
  kept : ∀ holder r, T.kept holder r → T₀.kept holder r
  typed : ∀ node type, T.typed node type → T₀.typed node type
  assertion : ∀ cause, T.assertion cause ↔ T₀.assertion cause

theorem Lawful.refines (h : T.Lawful) : T.Refines T :=
  ⟨h, fun _ hp => hp, fun _ hn => hn, fun _ _ hr => hr, fun _ _ ht => ht, fun _ => .rfl⟩

theorem Refines.resolves {T₀ : Theory m} (h : T.Refines T₀) {path : Path} {r : Resolution}
    (hr : T.Resolves path r) : T₀.Resolves path r := by
  obtain ⟨topology, site, hsite, hkept⟩ := hr
  exact ⟨topology, site, hsite, h.kept _ _ hkept⟩

theorem Refines.meets {T₀ : Theory m} (h : T.Refines T₀) {α : Type} {x : Inquiry α}
    {post : α → Prop} (hx : x.Meets T₀.contract post) : x.Meets T.contract post := by
  refine hx.mono h.path h.node (fun _ _ _ hr => h.resolves hr)
    (fun _ _ _ ht => ⟨ht.1, h.typed _ _ ht.2⟩) (fun e he => ?_) fun _ hpost => hpost
  cases e with
  | model error => trivial
  | assertion cause => exact (h.assertion cause).mpr he

end Theory

end Model

end SchemaRefs
