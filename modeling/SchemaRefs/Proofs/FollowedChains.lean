import SchemaRefs.Proofs.Completeness
import SchemaRefs.Proofs.LongChains

/-!
# Effective types and the chains that lead to them

The link of a node is what its type denotes, or else its origin, as a new session finds it
(`Leads`). A route follows links from a node to the first node that has structure, or to one without
link. Routes are determined by their first nodes and visit no node twice.

A session keeps a resolution for the holder of a reference, not for the path that was inspected. A
path that spells a step in another way than the path of its node can be read in another way, and
what is kept then is wrong for the links of chains. Such paths are excluded:

* `effectiveType_follows_chain`: sessions that read every path as that of a node answer with the
  ends of routes, for all nodes on them, and report a cycle if links lead back;
* `misread_segment_diverts_chain`: an index below an object is read as a segment of a reference, and
  the effective type of a node is then not on its chain.
-/

namespace SchemaRefs

open CacheM

namespace Model

variable {m : Model} {s t : Cache} {next node : NodeId}

/-! ## Paths that are read as those of nodes -/

variable (m) in
/-- What stands at the path stands at the path of a node. -/
def IsFaithful (path : Path) : Prop :=
  ∀ topology site, m.siteAt? path = .ok (topology, site) →
    ∃ node, m.siteAt? (m.doc.pathOf node) = .ok (topology, site)

theorem isFaithful_pathOf (m : Model) (node : NodeId) : m.IsFaithful (m.doc.pathOf node) :=
  fun _ _ hsite => ⟨node, hsite⟩

/-- Between requests, paths with the same site are inspected with the same effect. -/
theorem exec_inspect_congr {T : Theory m} (hs : T.Settled s) {path path' : Path}
    {topology : Topology} {site : Site} (h : m.siteAt? path = .ok (topology, site))
    (h' : m.siteAt? path' = .ok (topology, site)) :
    exec (m.inspect path) s = exec (m.inspect path') s := by
  have horderly := hs.agrees.orderly
  obtain ⟨t, hprepare, hex, _, hst, _⟩ :=
    exec_inspectWith_ok (m.lookups (2 * m.doc.size + 1)) horderly h
  obtain ⟨t', hprepare', hex', _⟩ :=
    exec_inspectWith_ok (m.lookups (2 * m.doc.size + 1)) horderly h'
  rw [hprepare] at hprepare'
  cases hprepare'
  have hidle : site.holder ∉ t.resolving := by
    rw [hst.resolving, hs.idle]
    exact List.not_mem_nil
  have hsame : exec (m.inspectSite (m.lookups (2 * m.doc.size + 1)) path topology site) t =
      exec (m.inspectSite (m.lookups (2 * m.doc.size + 1)) path' topology site) t := by
    simp only [exec_inspectSite, if_neg hidle]
  exact hex.trans (hsame.trans hex'.symm)

/-- Inspecting a path without site prepares the definition around it, or does nothing. -/
theorem exec_inspect_without_site (hs : Orderly m s) {path : Path} {e : ModelError}
    (h : m.siteAt? path = .error e) :
    (exec (m.inspect path) s).2 = s ∨
      ∃ definition, (exec (m.inspect path) s).2 = (exec (m.prepare definition) s).2 := by
  have hunfold : m.inspect path = m.inspectWith (m.lookups (2 * m.doc.size + 1)) path := rfl
  rw [hunfold, inspectWith, exec_bind, exec_ofExcept]
  unfold siteAt? at h
  cases hd : m.doc.pathDefinition path with
  | error e' => exact .inl rfl
  | ok definition =>
    refine .inr ⟨definition, ?_⟩
    simp only [hd] at h ⊢
    rcases prepare_cases hs (Document.isDefinition_of_pathDefinition hd) with
      ⟨topology, links, t, hb, hex, _⟩ | ⟨e', _, hex⟩
    · simp only [hb] at h
      rw [exec_bind_ok hex, exec_bind, exec_ofExcept, hex]
      cases ha : Site.analyze m.doc topology path with
      | error e' => rfl
      | ok site =>
        rw [ha] at h
        cases h
    · rw [exec_bind_error hex, hex]

/-- Sessions that read paths as those of nodes come to no other caches than sessions that inspect
those. -/
theorem reachableBy_canonical (h : m.ReachableBy m.IsFaithful s) :
    m.ReachableBy m.IsCanonical s := by
  induction h with
  | new => exact .new
  | @after s request hasks _ ih =>
    cases request with
    | inspect path =>
      have hs := settled_of_reachableBy governs_meanings ih
      change m.ReachableBy m.IsCanonical (exec (m.inspect path) s).2
      cases hsite : m.siteAt? path with
      | ok found =>
        obtain ⟨topology, site⟩ := found
        obtain ⟨node, hnode⟩ := hasks topology site hsite
        rw [exec_inspect_congr hs hsite hnode]
        exact .after (.inspect (m.doc.pathOf node)) ⟨node, rfl⟩ ih
      | error e =>
        rcases exec_inspect_without_site hs.agrees.orderly hsite with hsame | ⟨definition, hsame⟩
        · rw [hsame]
          exact ih
        · rw [hsame]
          exact .after (.prepare definition) trivial ih
    | _ => exact .after _ trivial ih

theorem settled_of_faithful (h : m.ReachableBy m.IsFaithful s) : m.meanings.Settled s :=
  settled_of_reachableBy governs_meanings (reachableBy_canonical h)

/-! ## Links in new sessions -/

theorem linksTo_of_exec {link : Option NodeId}
    (h : (exec ((m.chainLink node).run m.ask) Cache.empty).1 = .ok link) :
    m.OwnedAnswer link ∧ m.LinksTo node link := by
  have hempty : m.meanings.Settled Cache.empty := settled_empty
  exact (infers_of_exec (Theory.answers_ask lawful_meanings)
    (meets_chainLink pathClosed_isCanonical node) ⟨hempty.agrees, room_le _⟩ (Prod.ext h rfl)).1

theorem Leads.linksTo (h : m.Leads node next) : m.LinksTo node (some next) :=
  (linksTo_of_exec h).2

theorem Leads.isOwned (h : m.Leads node next) : m.IsOwned next :=
  (linksTo_of_exec h).1 next rfl

theorem Leads.unique {next' : NodeId} (h : m.Leads node next) (h' : m.Leads node next') :
    next = next' :=
  Option.some.inj (h.linksTo.unique h'.linksTo)

theorem exec_of_linksTo (hshort : m.ShortChains) {link : Option NodeId}
    (h : m.LinksTo node link) : (exec ((m.chainLink node).run m.ask) Cache.empty).1 = .ok link := by
  have hempty : m.meanings.Settled Cache.empty := settled_empty
  obtain ⟨t, hex⟩ := exec_of_infers hshort (meets_chainLink pathClosed_isCanonical node)
    ⟨hempty.agrees, room_le _⟩ (fun n => clear_of_settled n hempty) h
  exact congrArg Prod.fst hex

/-! ## Routes -/

variable (m) in
/-- A route follows links to the first node that has structure or no link. -/
inductive Route : NodeId → List NodeId → NodeId → Prop where
  | structured {node : NodeId} : m.doc.hasStructure node = true → Route node [node] node
  | ended {node : NodeId} : m.doc.hasStructure node = false →
      (exec ((m.chainLink node).run m.ask) Cache.empty).1 = .ok none → Route node [node] node
  | link {node next type : NodeId} {chain : List NodeId} : m.doc.hasStructure node = false →
      m.Leads node next → Route next chain type → Route node (node :: chain) type

namespace Route

variable {node type : NodeId} {chain : List NodeId}

theorem unique {type' : NodeId} {chain' : List NodeId} (h : m.Route node chain type)
    (h' : m.Route node chain' type') : chain = chain' ∧ type = type' := by
  induction h generalizing chain' type' with
  | structured hstruct =>
    cases h' with
    | structured => exact ⟨rfl, rfl⟩
    | ended hnone | link hnone =>
      rw [hstruct] at hnone
      cases hnone
  | ended hnone hend =>
    cases h' with
    | structured hstruct =>
      rw [hstruct] at hnone
      cases hnone
    | ended => exact ⟨rfl, rfl⟩
    | link _ hlink =>
      rw [Leads, hend] at hlink
      cases hlink
  | link hnone hlink _ ih =>
    cases h' with
    | structured hstruct =>
      rw [hstruct] at hnone
      cases hnone
    | ended _ hend =>
      rw [Leads, hend] at hlink
      cases hlink
    | link _ hlink' hrest =>
      cases hlink.unique hlink'
      obtain ⟨rfl, rfl⟩ := ih hrest
      exact ⟨rfl, rfl⟩

/-- A route goes on from each of its nodes. -/
theorem of_mem (h : m.Route node chain type) {c : NodeId} (hc : c ∈ chain) :
    ∃ rest, m.Route c rest type ∧ rest.length ≤ chain.length := by
  induction h with
  | structured hstruct =>
    cases List.mem_singleton.mp hc
    exact ⟨_, .structured hstruct, Nat.le_refl _⟩
  | ended hnone hend =>
    cases List.mem_singleton.mp hc
    exact ⟨_, .ended hnone hend, Nat.le_refl _⟩
  | link hnone hlink hrest ih =>
    rcases List.mem_cons.mp hc with rfl | hc
    · exact ⟨_, .link hnone hlink hrest, Nat.le_refl _⟩
    · obtain ⟨rest, hroute, hle⟩ := ih hc
      exact ⟨rest, hroute, Nat.le_succ_of_le hle⟩

/-- A node that came twice would have two routes, one longer than the other. -/
theorem nodup (h : m.Route node chain type) : chain.Nodup := by
  induction h with
  | structured | ended => exact List.nodup_singleton _
  | link hnone hlink hrest ih =>
    refine List.nodup_cons.mpr ⟨fun hmem => ?_, ih⟩
    obtain ⟨rest, hroute, hle⟩ := hrest.of_mem hmem
    obtain ⟨rfl, _⟩ := hroute.unique (.link hnone hlink hrest)
    exact absurd hle (Nat.not_succ_le_self _)

theorem isOwned (h : m.Route node chain type) (hnode : m.IsOwned node) :
    ∀ c ∈ chain, m.IsOwned c := by
  induction h with
  | structured | ended =>
    intro c hc
    cases List.mem_singleton.mp hc
    exact hnode
  | link _ hlink _ ih =>
    intro c hc
    rcases List.mem_cons.mp hc with rfl | hc
    · exact hnode
    · exact ih hlink.isOwned c hc

theorem chainEnds (h : m.Route node chain type) (hnode : m.IsOwned node) :
    m.ChainEnds node type := by
  induction h with
  | structured hstruct => exact chainEnds_structured hstruct
  | ended hnone hend =>
    obtain ⟨_, n, hn⟩ := linksTo_of_exec hend
    exact chainEnds_ended hnode hnone hn
  | link hnone hlink _ ih =>
    obtain ⟨n, hn⟩ := hlink.linksTo
    exact chainEnds_link hnode hnone hn (ih hlink.isOwned)

end Route

/-- A chain whose end is known at a stage is a route. -/
theorem exists_route (hshort : m.ShortChains) {type : NodeId} (h : m.ChainEnds node type) :
    ∃ chain, m.Route node chain type := by
  obtain ⟨n, hn⟩ := h
  induction n generalizing node with
  | zero => cases hn
  | succ n ih =>
    cases hstruct : m.doc.hasStructure node with
    | true =>
      cases (chainEnds_structured hstruct).unique ⟨n + 1, hn⟩
      exact ⟨_, .structured hstruct⟩
    | false =>
      obtain ⟨_, ⟨hlink, rfl⟩ | ⟨next, hlink, hnext⟩⟩ := chainEnd_cases hstruct hn
      · exact ⟨_, .ended hstruct (exec_of_linksTo hshort ⟨n, hlink⟩)⟩
      · obtain ⟨chain, hroute⟩ := ih hnext
        exact ⟨_, .link hstruct (exec_of_linksTo hshort ⟨n, hlink⟩) hroute⟩

/-- Sessions find the ends that are known, and no others. -/
theorem effectiveType_eq_ok_iff (hshort : m.ShortChains) (hs : m.meanings.Settled s) {type : NodeId}
    (hnode : m.IsOwned node) :
    (exec (m.effectiveType node) s).1 = .ok type ↔ m.ChainEnds node type := by
  have hready : m.meanings.Ready m.nesting s := ⟨hs.agrees, room_le s⟩
  constructor
  · intro hok
    have hends := ((Theory.answers_ask lawful_meanings).effectiveType node
      (.inl hnode) s hready).2.2
    change Ends _ _ (exec (m.effectiveType node) s).1 at hends
    rw [hok] at hends
    exact hends.2.2
  · rintro ⟨n, hn⟩
    obtain ⟨t, hex⟩ := (yields_lookups hshort n m.nesting).1.effectiveType node type s
      (.inl hnode) hready (clear_of_settled n hs) hnode hn
    exact congrArg Prod.fst hex

/-! ## Links that lead back -/

variable (m) in
/-- Links lead from each node to the next one, none of which has structure, and from the last one
back. -/
structure Loops (chain : List NodeId) : Prop where
  links : chain.IsChain m.Leads
  unstructured : ∀ node ∈ chain, m.doc.hasStructure node = false
  returns : ∃ last back, chain.getLast? = some last ∧ back ∈ chain ∧ m.Leads last back

theorem getLast?_or_leads {chain : List NodeId} (h : chain.IsChain m.Leads)
    (hn : node ∈ chain) : chain.getLast? = some node ∨ ∃ next ∈ chain, m.Leads node next := by
  induction h with
  | nil => cases hn
  | singleton first =>
    cases List.mem_singleton.mp hn
    exact .inl rfl
  | @cons_cons first second rest hlink _ ih =>
    rcases List.mem_cons.mp hn with rfl | hn
    · exact .inr ⟨second, List.mem_cons_of_mem _ List.mem_cons_self, hlink⟩
    · rcases ih hn with hlast | ⟨next, hnext, hleads⟩
      · exact .inl (List.getLast?_cons_cons.trans hlast)
      · exact .inr ⟨next, List.mem_cons_of_mem _ hnext, hleads⟩

/-- The link of a node that has just been marked is found as in a new session, or a cycle is
reported. -/
theorem found_link {depth : Nat} (hleads : m.Leads node next) (hnode : m.IsOwned node)
    (hs : m.meanings.Ready (depth + 1) s) (hnone : s.get? .effectiveType node = none)
    (hstruct : m.doc.hasStructure node = false) (hmark : exec (m.markChain node) s = (.ok (), t))
    {result : Except ResolveError (Option NodeId)} {u : Cache}
    (hlink : exec ((m.chainLink node).run (m.lookups depth)) t = (result, u)) :
    m.meanings.Ready (depth + 1) u ∧ FoundOrCircular (some next) result := by
  have hanswers := Theory.answers_lookups (lawful_meanings (m := m)) depth
  obtain ⟨_, _, _, hready, hafter⟩ :=
    Theory.link_cases lawful_meanings hanswers (.inl hnode) hs hnone hstruct hmark
  obtain ⟨n, hn⟩ := hleads.linksTo
  have hfound := (finds_lookups n depth).1.run hanswers
    (lawful_meanings.link node (.inl hnode) hnode hstruct) hn hready
  rw [hlink] at hfound
  exact ⟨(hafter _ _ hlink).1, hfound⟩

namespace Loops

variable {chain : List NodeId} (h : m.Loops chain) {node : NodeId}
include h

theorem leads (hn : node ∈ chain) : ∃ next ∈ chain, m.Leads node next := by
  rcases getLast?_or_leads h.links hn with hlast | hnext
  · obtain ⟨last, back, hlast', hback, hleads⟩ := h.returns
    rw [hlast] at hlast'
    cases hlast'
    exact ⟨back, hback, hleads⟩
  · exact hnext

/-- No route starts in a loop, since it would have to leave it. -/
theorem not_chainEnds {type : NodeId} (hn : node ∈ chain) : ¬ m.ChainEnds node type := by
  rintro ⟨n, hend⟩
  induction n generalizing node with
  | zero => cases hend
  | succ n ih =>
    obtain ⟨next, hnext, hleads⟩ := h.leads hn
    obtain ⟨_, ⟨hlink, _⟩ | ⟨next', hlink, hend'⟩⟩ := chainEnd_cases (h.unstructured node hn) hend
    · cases hleads.linksTo.unique ⟨n, hlink⟩
    · cases hleads.linksTo.unique ⟨n, hlink⟩
      exact ih hnext hend'

/-- A walk along a loop comes to a marked node, or runs out of steps, or a link fails with a
cycle. -/
theorem outcome_circular {depth : Nat} {start current : NodeId} {steps : Nat} {marked : List NodeId}
    {walk : ChainWalk} (hrun : ChainRun m (m.lookups depth) start steps current marked s walk t)
    (hn : current ∈ chain) (hnode : m.IsOwned current) (hs : m.meanings.Ready (depth + 1) s) :
    ∃ e, walk.outcome = .error (.model e) ∧ e.kind = .circularType := by
  induction hrun with
  | known hdone => exact absurd (hs.agrees.typed _ _ hdone).2 (h.not_chainEnds hn)
  | circular | exhausted => exact ⟨_, rfl, rfl⟩
  | structured _ hstruct =>
    rw [h.unstructured _ hn] at hstruct
    cases hstruct
  | unmarkable hnone _ hmark =>
    rw [IsOwned, (outside_of_markChain hs.agrees.orderly hnone hmark).1] at hnode
    cases hnode
  | broken hnone hstruct hmark hlink =>
    obtain ⟨next, _, hleads⟩ := h.leads hn
    obtain ⟨_, hfound⟩ := found_link hleads hnode hs hnone hstruct hmark hlink
    obtain ⟨e, rfl, hkind⟩ := hfound
    exact ⟨e, rfl, hkind⟩
  | ended hnone hstruct hmark hlink =>
    obtain ⟨next, _, hleads⟩ := h.leads hn
    obtain ⟨_, hfound⟩ := found_link hleads hnode hs hnone hstruct hmark hlink
    cases hfound
  | link hnone hstruct hmark hlink _ ih =>
    obtain ⟨next, hnext, hleads⟩ := h.leads hn
    obtain ⟨hready, hfound⟩ := found_link hleads hnode hs hnone hstruct hmark hlink
    cases hfound
    exact ih hnext hleads.isOwned hready

theorem effectiveType_circular (hn : node ∈ chain) (hnode : m.IsOwned node)
    (hs : m.meanings.Settled s) :
    ∃ e, (exec (m.effectiveType node) s).1 = .error (.model e) ∧ e.kind = .circularType := by
  rcases hstate : s.get? .effectiveType node with _ | _ | type
  · obtain ⟨walk, t, u, hrun, hex, _⟩ := exec_effectiveType_new governs_meanings hs hnode hstate
    rw [hex]
    exact h.outcome_circular hrun hn hnode
      ⟨hs.agrees.count _, (Extends.count s countWalk).room_eq ▸ room_le s⟩
  · exact absurd hstate (hs.unmarked node)
  · exact absurd (hs.agrees.typed _ _ hstate).2 (h.not_chainEnds hn)

end Loops

/-- Chains of types are short, and the session has inspected only paths that are read as those of
nodes. Then the effective type of a node in a definition is the end of a route from the node. The
nodes of the route are distinct, and all of them have this effective type in every such session. If
the links from a node lead back before they come to structure, a cycle is reported. -/
theorem effectiveType_follows_chain {m : Model} (hshort : m.ShortChains) {s : Cache}
    (hs : m.ReachableBy m.IsFaithful s) {node : NodeId} (hnode : m.IsOwned node) :
    (∀ type, (exec (m.effectiveType node) s).1 = .ok type ↔ ∃ chain, m.Route node chain type) ∧
    (∀ chain type, m.Route node chain type → chain.Nodup ∧
      ∀ c ∈ chain, ∀ t, m.ReachableBy m.IsFaithful t → (exec (m.effectiveType c) t).1 = .ok type) ∧
    (∀ chain, m.Loops chain → node ∈ chain →
      ∃ e, (exec (m.effectiveType node) s).1 = .error (.model e) ∧ e.kind = .circularType) := by
  refine ⟨fun type => ?_, fun chain type hroute => ⟨hroute.nodup, fun c hc t ht => ?_⟩,
    fun chain hloops hn => hloops.effectiveType_circular hn hnode (settled_of_faithful hs)⟩
  · rw [effectiveType_eq_ok_iff hshort (settled_of_faithful hs) hnode]
    refine ⟨exists_route hshort, fun hroute => ?_⟩
    obtain ⟨chain, hroute⟩ := hroute
    exact hroute.chainEnds hnode
  · have howned := hroute.isOwned hnode c hc
    obtain ⟨rest, hrest, _⟩ := hroute.of_mem hc
    exact (effectiveType_eq_ok_iff hshort (settled_of_faithful ht) howned).mpr
      (hrest.chainEnds howned)

/-! ### A chain through three definitions, and one that leads back -/

/-- The element `0` has the type `T`, whose type `U` comes from the other element; `A` and `B` need
each other. -/
def labelModel : Model :=
  ⟨.ofDefinitions [
    ("S", .object [("elements", .object [
      ("0", .object [("type", .string "T")]),
      ("y", .object [("enum", .object [])])])]),
    ("T", .object [("type", .object [("ref", .array [.string "U"])])]),
    ("U", .object [("$origin", .array [.string "S", .string "y"])]),
    ("A", .object [("type", .string "B")]),
    ("B", .object [("$origin", .string "A")])], {}⟩

/-- The type of the element `0`, with its name as an index. -/
def indexedPath : Path :=
  ⟨[.key "definitions", .key "S", .key "elements", .index 0, .key "type"]⟩

def labelSession : Cache :=
  (exec (labelModel.answer (.inspect indexedPath)) Cache.empty).2

theorem isFaithful_indexedPath : labelModel.IsFaithful indexedPath := by
  have hsame : labelModel.siteAt? indexedPath = labelModel.siteAt? (labelModel.doc.pathOf 5) := by
    decide +kernel
  intro topology site hsite
  exact ⟨5, hsame.symm.trans hsite⟩

theorem reachableBy_labelSession : labelModel.ReachableBy labelModel.IsFaithful labelSession :=
  .after (.inspect indexedPath) isFaithful_indexedPath .new

theorem route_labelModel : labelModel.Route 4 [4, 8, 12, 6] 6 :=
  .link (by decide +kernel) (eq_ok_of_toOption (by decide +kernel))
    (.link (by decide +kernel) (eq_ok_of_toOption (by decide +kernel))
      (.link (by decide +kernel) (eq_ok_of_toOption (by decide +kernel))
        (.structured (by decide +kernel))))

theorem loops_labelModel : labelModel.Loops [16, 18] := by
  refine ⟨.cons_cons (eq_ok_of_toOption (by decide +kernel)) (.singleton 18), by decide +kernel,
    18, 16, rfl, List.mem_cons_self, eq_ok_of_toOption (by decide +kernel)⟩

/-- The path is not that of the node, yet the element and the types on its route have the other
element as their effective type. -/
theorem labelSession_follows_chain :
    labelModel.ShortChains ∧ indexedPath ≠ labelModel.doc.pathOf 5 ∧
    (labelSession.get? .resolution 5).isSome = true ∧
    (∀ c ∈ [4, 8, 12, 6], (exec (labelModel.effectiveType c) labelSession).1 = .ok 6) ∧
    ∃ e, (exec (labelModel.effectiveType 16) labelSession).1 = .error (.model e) ∧
      e.kind = .circularType := by
  have hshort : labelModel.ShortChains := shortChains_of_size (by decide +kernel)
  have helement : labelModel.IsOwned 4 := by
    unfold IsOwned
    decide +kernel
  have htype : labelModel.IsOwned 16 := by
    unfold IsOwned
    decide +kernel
  obtain ⟨_, hroutes, _⟩ := effectiveType_follows_chain hshort reachableBy_labelSession helement
  obtain ⟨_, _, hloops⟩ := effectiveType_follows_chain hshort reachableBy_labelSession htype
  exact ⟨hshort, by decide +kernel, by decide +kernel,
    fun c hc => (hroutes _ _ route_labelModel).2 c hc _ reachableBy_labelSession,
    hloops _ loops_labelModel List.mem_cons_self⟩

/-! ### An index that is read as a segment -/

/-- The reference of the value is an object with a member `0`, whose type is the definition `T`. The
definition around it has an element of the same name. -/
def numeralModel : Model :=
  ⟨.ofDefinitions [
    ("T", .object [("elements", .object [])]),
    ("D", .object [("elements", .object [
      ("T", .object [("type", .string "cds.String")]),
      ("x", .object [("value", .object [("ref", .object [
        ("0", .object [("type", .object [("ref", .array [.string "T"])])])])])])])])], {}⟩

/-- The type of the member `0` has been inspected, with the name of the member as an index. -/
def numeralSession : Cache :=
  (exec (numeralModel.answer (.inspect
    ⟨[.key "definitions", .key "D", .key "elements", .key "x", .key "value",
    .key "ref", .index 0, .key "type"]⟩)) Cache.empty).2

/-- The member `0` leads to the definition `T`, which has elements. The session answers with the
element `T`, which is on no route from the member. -/
theorem misread_segment_diverts_chain :
    numeralModel.ShortChains ∧ numeralModel.Reachable numeralSession ∧ numeralModel.IsOwned 11 ∧
    numeralModel.Route 11 [11, 2] 2 ∧
    (exec (numeralModel.effectiveType 11) numeralSession).1 = .ok 6 ∧
    ¬ ∃ chain, numeralModel.Route 11 chain 6 := by
  have hroute : numeralModel.Route 11 [11, 2] 2 :=
    .link (by decide +kernel) (eq_ok_of_toOption (by decide +kernel))
      (.structured (by decide +kernel))
  refine ⟨shortChains_of_size (by decide +kernel), .after _ trivial .new, ?_, hroute,
    eq_ok_of_toOption (by decide +kernel), ?_⟩
  · unfold IsOwned
    decide +kernel
  · rintro ⟨chain, hother⟩
    exact absurd (hroute.unique hother).2 (by decide)

end Model

end SchemaRefs
