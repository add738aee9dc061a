import SchemaRefs.Proofs.Requests

/-!
# What references mean

What a session answers can be found out without any cache. At stage `0` nothing is known; at stage
`n + 1` a reference has a resolution, and a chain of types an end, if the rules come to one with
what is known at stage `n`. A chain that comes back to itself has no end at any stage, and neither
has a reference that needs itself a resolution.

* `stage_mono`: what is known at a stage stays known;
* `siteAt?_eq_of_holder`: on the paths of nodes, a holder has one site, so that what is kept for it
  has one meaning;
* `governs_meanings`: sessions keep and answer only what is known at some stage;
* `infers_of_exec`: in the middle of a request, too, an inquiry comes to nothing else.
-/

namespace SchemaRefs

/-- Answers to some of the questions of inquiries. -/
structure Knowledge where
  resolution : Path → Option Resolution
  chainEnd : NodeId → Option NodeId

namespace Knowledge

/-- The other one knows at least as much. -/
structure Le (k k' : Knowledge) : Prop where
  resolution : ∀ path r, k.resolution path = some r → k'.resolution path = some r
  chainEnd : ∀ node type, k.chainEnd node = some type → k'.chainEnd node = some type

theorem Le.refl (k : Knowledge) : k.Le k :=
  ⟨fun _ _ h => h, fun _ _ h => h⟩

theorem Le.trans {k k' k'' : Knowledge} (h : k.Le k') (h' : k'.Le k'') : k.Le k'' :=
  ⟨fun path r hr => h'.resolution path r (h.resolution path r hr),
    fun node type ht => h'.chainEnd node type (h.chainEnd node type ht)⟩

end Knowledge

/-- The answer of an inquiry whose questions are answered from what is known. Only nodes of
definitions have effective types. -/
def Inquiry.infer (doc : Document) (k : Knowledge) {α : Type} : Inquiry α → Option α
  | .answer value => some value
  | .failure _ => none
  | .inspect path next => (k.resolution path).bind fun r => (next r).infer doc k
  | .effectiveType node next =>
    if (doc.owner? node).isSome then
      (k.chainEnd node).bind fun type => (next type).infer doc k
    else none

theorem Inquiry.infer_mono {doc : Document} {k k' : Knowledge} (h : k.Le k') {α : Type}
    {x : Inquiry α} {a : α} (hx : x.infer doc k = some a) : x.infer doc k' = some a := by
  induction x with
  | answer value => exact hx
  | failure error => cases hx
  | inspect path next ih =>
    obtain ⟨r, hr, hnext⟩ := Option.bind_eq_some_iff.mp hx
    rw [infer, h.resolution path r hr, Option.bind_some]
    exact ih r hnext
  | effectiveType node next ih =>
    rw [infer] at hx ⊢
    split at hx
    · next ho =>
      obtain ⟨type, ht, hnext⟩ := Option.bind_eq_some_iff.mp hx
      rw [if_pos ho, h.chainEnd node type ht, Option.bind_some]
      exact ih type hnext
    · cases hx

namespace Model

variable (m : Model) {n : Nat} {node type : NodeId} {path : Path} {r : Resolution} {α : Type}

/-! ## Stages -/

/-- The end of the chain of a node, given what its link denotes and how the chain goes on there. -/
def chainEndBy (k : Knowledge) (node : NodeId) : Option NodeId :=
  if m.doc.hasStructure node then some node
  else if (m.doc.owner? node).isSome then
    match (m.chainLink node).infer m.doc k with
    | none => none
    | some none => some node
    | some (some next) => k.chainEnd next
  else none

/-- The resolution of what stands at a path. -/
def resolutionBy (k : Knowledge) (path : Path) : Option Resolution :=
  match m.siteAt? path with
  | .ok (topology, site) => (m.resolveSite site topology).infer m.doc k
  | .error _ => none

/-- What is known after a number of rounds. -/
def stage : Nat → Knowledge
  | 0 => ⟨fun _ => none, fun _ => none⟩
  | n + 1 => ⟨m.resolutionBy (stage n), m.chainEndBy (stage n)⟩

variable {m}

theorem stage_resolution (n : Nat) (path : Path) :
    (m.stage (n + 1)).resolution path = m.resolutionBy (m.stage n) path := rfl

theorem stage_chainEnd (n : Nat) (node : NodeId) :
    (m.stage (n + 1)).chainEnd node = m.chainEndBy (m.stage n) node := rfl

theorem resolutionBy_mono {k k' : Knowledge} (h : k.Le k')
    (hr : m.resolutionBy k path = some r) : m.resolutionBy k' path = some r := by
  unfold resolutionBy at hr ⊢
  split at hr
  · exact Inquiry.infer_mono h hr
  · cases hr

theorem chainEndBy_mono {k k' : Knowledge} (h : k.Le k')
    (ht : m.chainEndBy k node = some type) : m.chainEndBy k' node = some type := by
  unfold chainEndBy at ht ⊢
  split at ht
  · next hs => rw [if_pos hs, ht]
  · next hs =>
    rw [if_neg hs]
    split at ht
    · next ho =>
      rw [if_pos ho]
      split at ht
      · cases ht
      · next hl => rw [Inquiry.infer_mono h hl, ht]
      · next next hl =>
        rw [Inquiry.infer_mono h hl]
        exact h.chainEnd next type ht
    · cases ht

theorem stage_le_succ (n : Nat) : (m.stage n).Le (m.stage (n + 1)) := by
  induction n with
  | zero => exact ⟨fun _ _ h => (by cases h), fun _ _ h => (by cases h)⟩
  | succ n ih => exact ⟨fun _ _ h => resolutionBy_mono ih h, fun _ _ h => chainEndBy_mono ih h⟩

theorem stage_mono {k : Nat} (h : n ≤ k) : (m.stage n).Le (m.stage k) := by
  induction h with
  | refl => exact .refl _
  | step _ ih => exact ih.trans (stage_le_succ _)

variable (m) in
/-- The resolution of what stands at a path is known at some stage. -/
def Denotes (path : Path) (r : Resolution) : Prop :=
  ∃ n, (m.stage n).resolution path = some r

variable (m) in
/-- The end of the chain of a node is known at some stage. -/
def ChainEnds (node type : NodeId) : Prop :=
  ∃ n, (m.stage n).chainEnd node = some type

theorem Denotes.unique {r' : Resolution} (h : m.Denotes path r) (h' : m.Denotes path r') :
    r = r' := by
  obtain ⟨n, hn⟩ := h
  obtain ⟨k, hk⟩ := h'
  have hr := (stage_mono (Nat.le_max_left n k)).resolution path r hn
  rw [(stage_mono (Nat.le_max_right n k)).resolution path r' hk] at hr
  exact (Option.some.inj hr).symm

theorem ChainEnds.unique {type' : NodeId} (h : m.ChainEnds node type)
    (h' : m.ChainEnds node type') : type = type' := by
  obtain ⟨n, hn⟩ := h
  obtain ⟨k, hk⟩ := h'
  have ht := (stage_mono (Nat.le_max_left n k)).chainEnd node type hn
  rw [(stage_mono (Nat.le_max_right n k)).chainEnd node type' hk] at ht
  exact (Option.some.inj ht).symm

variable (m) in
/-- The inquiry comes to the answer at some stage. -/
def Infers {α : Type} (x : Inquiry α) (a : α) : Prop :=
  ∃ n, x.infer m.doc (m.stage n) = some a

theorem Infers.unique {x : Inquiry α} {a b : α} (h : m.Infers x a) (h' : m.Infers x b) : a = b := by
  obtain ⟨n, hn⟩ := h
  obtain ⟨k, hk⟩ := h'
  have ha := Inquiry.infer_mono (stage_mono (Nat.le_max_left n k)) hn
  rw [Inquiry.infer_mono (stage_mono (Nat.le_max_right n k)) hk] at ha
  exact (Option.some.inj ha).symm

/-! ## Paths of nodes -/

variable (m) in
/-- The path of some node. -/
def IsCanonical (path : Path) : Prop :=
  ∃ node, path = m.doc.pathOf node

theorem IsCanonical.owner {topology : Topology} {site : Site} (hp : m.IsCanonical path)
    (h : m.siteAt? path = .ok (topology, site)) :
    ∃ node, path = m.doc.pathOf node ∧ m.doc.owner? node = some site.main := by
  obtain ⟨node, rfl⟩ := hp
  obtain ⟨_, hd, _⟩ := siteAt?_eq_ok h
  exact ⟨node, rfl, Document.owner?_of_pathDefinition hd⟩

theorem pathClosed_isCanonical : m.PathClosed m.IsCanonical := by
  refine ⟨fun node => ⟨node, rfl⟩, fun path topology site base hp h hb => ?_⟩
  obtain ⟨node, rfl, ho⟩ := hp.owner h
  obtain ⟨_, _, _, _, ha, _⟩ := siteAt?_eq_ok h
  obtain ⟨outer, _, rfl | ⟨position, rfl⟩⟩ := Site.base_of_pathOf ho ha hb
  · exact ⟨outer, rfl⟩
  · exact ⟨outer, rfl⟩

/-- On the paths of nodes, the site is a function of the holder. -/
theorem siteAt?_eq_of_holder {path' : Path} {topology topology' : Topology} {site site' : Site}
    (hp : m.IsCanonical path) (hp' : m.IsCanonical path')
    (h : m.siteAt? path = .ok (topology, site)) (h' : m.siteAt? path' = .ok (topology', site'))
    (hh : site.holder = site'.holder) :
    m.siteAt? path = m.siteAt? path' := by
  cases topology_eq_of_main h h' (main_eq_of_holder h h' hh)
  obtain ⟨node, rfl⟩ := hp
  obtain ⟨node', rfl⟩ := hp'
  obtain ⟨_, _, _, _, ha, _⟩ := siteAt?_eq_ok h
  obtain ⟨_, _, _, _, ha', _⟩ := siteAt?_eq_ok h'
  rw [h, h', Site.eq_of_holder ha ha' hh]

theorem stage_resolution_congr {path' : Path} (h : m.siteAt? path = m.siteAt? path') (n : Nat) :
    (m.stage n).resolution path = (m.stage n).resolution path' := by
  cases n with
  | zero => rfl
  | succ n => rw [stage_resolution, stage_resolution, resolutionBy, resolutionBy, h]

/-! ## The theory -/

variable (m) in
/-- What the rules say, and that all of it is known at some stage. -/
def meanings : Theory m where
  path := m.IsCanonical
  node := (m.rules m.IsCanonical).node
  kept := fun holder r => (m.rules m.IsCanonical).kept holder r ∧
    ∃ path topology site, m.IsCanonical path ∧ m.siteAt? path = .ok (topology, site) ∧
      site.holder = holder ∧ m.Denotes path r
  typed := fun node type => (m.rules m.IsCanonical).typed node type ∧ m.ChainEnds node type
  assertion := (m.rules m.IsCanonical).assertion

theorem denotes_of_resolves (hp : m.IsCanonical path)
    (h : m.meanings.Resolves path r) : m.Denotes path r := by
  obtain ⟨topology, site, hsite, _, path', topology', site', hp', hsite', hh, n, hn⟩ := h
  refine ⟨n, ?_⟩
  rw [stage_resolution_congr (siteAt?_eq_of_holder hp hp' hsite hsite' hh.symm)]
  exact hn

/-- An inquiry that respects the rules comes to what can be inferred at some stage. -/
theorem meets_inferred {x : Inquiry α} {post : α → Prop}
    (hx : x.Meets (m.rules m.IsCanonical).contract post) :
    x.Meets m.meanings.contract fun a => post a ∧ m.Infers x a := by
  induction x with
  | answer value => exact ⟨hx, 0, rfl⟩
  | failure error =>
    cases error with
    | model error => trivial
    | assertion cause => exact hx
  | inspect path next ih =>
    refine ⟨hx.1, fun r hr => ?_⟩
    obtain ⟨n, hn⟩ := denotes_of_resolves hx.1 hr
    obtain ⟨topology, site, hsite, hkept, _⟩ := hr
    refine (ih r (hx.2 r ⟨topology, site, hsite, hkept⟩)).weaken fun a ⟨hpost, k, hk⟩ => ?_
    refine ⟨hpost, max n k, ?_⟩
    rw [Inquiry.infer, (stage_mono (Nat.le_max_left n k)).resolution path r hn, Option.bind_some]
    exact Inquiry.infer_mono (stage_mono (Nat.le_max_right n k)) hk
  | effectiveType node next ih =>
    refine ⟨hx.1, fun type ⟨ho, htyped, n, hn⟩ => ?_⟩
    refine (ih type (hx.2 type ⟨ho, htyped⟩)).weaken fun a ⟨hpost, k, hk⟩ => ?_
    refine ⟨hpost, max n k, ?_⟩
    rw [Inquiry.infer, if_pos ho, (stage_mono (Nat.le_max_left n k)).chainEnd node type hn,
      Option.bind_some]
    exact Inquiry.infer_mono (stage_mono (Nat.le_max_right n k)) hk

/-! ## Chains -/

theorem chainEnds_structured (h : m.doc.hasStructure node = true) :
    m.ChainEnds node node :=
  ⟨1, by rw [stage_chainEnd, chainEndBy, if_pos h]⟩

section

variable {node : NodeId} (ho : (m.doc.owner? node).isSome = true)
  (hs : m.doc.hasStructure node = false)
include ho hs

theorem chainEnds_ended (h : (m.chainLink node).infer m.doc (m.stage n) = some none) :
    m.ChainEnds node node :=
  ⟨n + 1, by rw [stage_chainEnd, chainEndBy, hs, if_neg Bool.false_ne_true, if_pos ho, h]⟩

theorem chainEnds_link {next : NodeId}
    (h : (m.chainLink node).infer m.doc (m.stage n) = some (some next))
    (ht : m.ChainEnds next type) :
    m.ChainEnds node type := by
  obtain ⟨k, hk⟩ := ht
  refine ⟨max n k + 1, ?_⟩
  rw [stage_chainEnd, chainEndBy, hs, if_neg Bool.false_ne_true, if_pos ho,
    Inquiry.infer_mono (stage_mono (Nat.le_max_left n k)) h]
  exact (stage_mono (Nat.le_max_right n k)).chainEnd next type hk

end

/-- How the end of a chain is known at a stage: its node is the end, or the chain goes on. -/
theorem chainEnd_cases (hs : m.doc.hasStructure node = false)
    (h : (m.stage (n + 1)).chainEnd node = some type) :
    (m.doc.owner? node).isSome = true ∧
      ((m.chainLink node).infer m.doc (m.stage n) = some none ∧ type = node ∨
        ∃ next, (m.chainLink node).infer m.doc (m.stage n) = some (some next) ∧
          (m.stage n).chainEnd next = some type) := by
  rw [stage_chainEnd, chainEndBy, hs, if_neg Bool.false_ne_true] at h
  split at h
  · next ho =>
    refine ⟨ho, ?_⟩
    split at h
    · cases h
    · next hl => exact .inl ⟨hl, (Option.some.inj h).symm⟩
    · next next hl => exact .inr ⟨next, hl, h⟩
  · cases h

theorem lawful_meanings : m.meanings.Lawful := by
  have hrules : (m.rules m.IsCanonical).Lawful := lawful_rules pathClosed_isCanonical
  refine ⟨fun path topology site hp hsite => ?_, fun node hn hs => ?_, fun node hn ho hs => ?_,
    fun node hn ho => hrules.outside node hn ho⟩
  · refine (meets_inferred (hrules.site path topology site hp hsite)).weaken
      fun r ⟨hkept, n, hn⟩ => ?_
    refine ⟨hkept, path, topology, site, hp, hsite, rfl, n + 1, ?_⟩
    rw [stage_resolution]
    simp only [resolutionBy, hsite, hn]
  · exact ⟨hrules.structured node hn hs, chainEnds_structured hs⟩
  · refine (meets_inferred (hrules.link node hn ho hs)).weaken fun next ⟨hlinks, n, hnext⟩ => ?_
    cases next with
    | none => exact ⟨hlinks, chainEnds_ended ho hs hnext⟩
    | some next =>
      exact ⟨hlinks.1, fun type ht => ⟨hlinks.2 type ht.1, chainEnds_link ho hs hnext ht.2⟩⟩

/-- Sessions that inspect the paths of nodes know only what is known at some stage. -/
theorem governs_meanings : m.meanings.Governs m.IsCanonical :=
  ⟨pathClosed_isCanonical, lawful_meanings, fun _ h => h, fun _ h => h, fun _ _ h => h.1,
    fun _ _ h => h.1, fun _ => .rfl⟩

/-- What a session comes to at any point is inferred. -/
theorem infers_of_exec {depth : Nat} {k : Lookups} {x : Inquiry α} {post : α → Prop} {a : α}
    {s t : Cache} (hk : m.meanings.Answers depth k)
    (hx : x.Meets (m.rules m.IsCanonical).contract post) (hs : m.meanings.Ready depth s)
    (hex : CacheM.exec (x.run k) s = (.ok a, t)) :
    (post a ∧ m.Infers x a) ∧ m.meanings.Ready depth t ∧ Extends s t := by
  obtain ⟨hready, hext, hend⟩ := hk.run (meets_inferred hx) s hs
  rw [hex] at hready hext hend
  exact ⟨hend, hready, hext⟩

end Model

end SchemaRefs
