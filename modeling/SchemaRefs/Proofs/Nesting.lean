import SchemaRefs.Proofs.Requests

/-!
# Questions that wait for each other

To answer a question, a session may have to pose others: a reference asks for the environments of
its segments, a chain for what the types on it denote. `Poses` says which questions the answer to a
question poses, and in which caches. The answer depends on nothing else (`exec_call_congr`).

While a question waits for another one, it keeps the holder of its reference among those that are
being resolved, or the nodes of its chain marked (`Frame`). None of them was before, so the nodes
without mark and the holders that are free become fewer from question to question (`Poses.deeper`,
`Deeper.shrinks`). Hence answers do not depend on the depth to which questions may be nested, once
it exceeds their number (`exec_lookups_of_le`).
-/

namespace SchemaRefs

open CacheM

/-- A question that inquiries ask. -/
inductive Question where
  | inspect (path : Path)
  | effectiveType (node : NodeId)
deriving DecidableEq

/-- The answers to a question. -/
def Question.Result : Question → Type
  | .inspect _ => Resolution
  | .effectiveType _ => NodeId

/-- The answer to a question. -/
def Lookups.answer (k : Lookups) : (question : Question) → CacheM question.Result
  | .inspect path => k.inspect path
  | .effectiveType node => k.effectiveType node

namespace Inquiry

variable {α : Type} {k k' : Lookups} {x : Inquiry α} {s t : Cache} {question : Question}

/-- The questions that an inquiry comes to ask when `k` answers them, each with the cache at that
time. -/
inductive Asks (k : Lookups) : Inquiry α → Cache → Question → Cache → Prop where
  | inspect {path : Path} {next : Resolution → Inquiry α} {s : Cache} :
      Asks k (.inspect path next) s (.inspect path) s
  | effectiveType {node : NodeId} {next : NodeId → Inquiry α} {s : Cache} :
      Asks k (.effectiveType node next) s (.effectiveType node) s
  | afterInspect {path : Path} {next : Resolution → Inquiry α} {r : Resolution} {s t u : Cache}
      {question : Question} :
      exec (k.inspect path) s = (.ok r, t) → Asks k (next r) t question u →
      Asks k (.inspect path next) s question u
  | afterEffectiveType {node type : NodeId} {next : NodeId → Inquiry α} {s t u : Cache}
      {question : Question} :
      exec (k.effectiveType node) s = (.ok type, t) → Asks k (next type) t question u →
      Asks k (.effectiveType node next) s question u

/-- The outcome of an inquiry depends only on the answers to the questions that it asks. -/
theorem exec_run_congr (h : ∀ question t, x.Asks k s question t →
    exec (k.answer question) t = exec (k'.answer question) t) :
    exec (x.run k) s = exec (x.run k') s := by
  induction x generalizing s with
  | answer value => rfl
  | failure error => rfl
  | inspect path next ih =>
    have hfirst : exec (k.inspect path) s = exec (k'.inspect path) s := h _ _ .inspect
    rw [run, run, exec_bind, exec_bind, ← hfirst]
    rcases hex : exec (k.inspect path) s with ⟨e | r, t⟩
    · rfl
    · exact ih r fun question u hasks => h question u (.afterInspect hex hasks)
  | effectiveType node next ih =>
    have hfirst : exec (k.effectiveType node) s = exec (k'.effectiveType node) s :=
      h _ _ .effectiveType
    rw [run, run, exec_bind, exec_bind, ← hfirst]
    rcases hex : exec (k.effectiveType node) s with ⟨e | type, t⟩
    · rfl
    · exact ih type fun question u hasks => h question u (.afterEffectiveType hex hasks)

end Inquiry

/-- What a call has under way while it waits for another one. -/
inductive Frame where
  /-- The reference of a holder is being resolved. -/
  | reference (holder : NodeId)
  /-- The chain that begins with these nodes is being walked. -/
  | chain (nodes : List NodeId)
  /-- The origin of a node is searched for. -/
  | origin (node : NodeId)
  | other

namespace Frame

/-- The holder of the reference. -/
def holders : Frame → List NodeId
  | .reference holder => [holder]
  | _ => []

/-- The nodes of the chain. -/
def nodes : Frame → List NodeId
  | .chain nodes => nodes
  | _ => []

/-- The node whose origin is searched for. -/
def searched : Frame → List NodeId
  | .origin node => [node]
  | _ => []

end Frame

namespace Model

variable {m : Model} {k k' : Lookups} {s t u : Cache} {question inner : Question} {frame : Frame}

/-! ## The questions that an answer poses -/

variable (m k) in
/-- The walk along the chain of a node comes to another one, in a cache where the nodes on the way
are marked. -/
inductive WalksTo (start : NodeId) (s : Cache) : Nat → NodeId → List NodeId → Cache → Prop where
  | start : WalksTo start s maxChainLength start [] (s.count countWalk)
  | link {steps : Nat} {current next : NodeId} {marked : List NodeId} {t u v : Cache} :
      WalksTo start s (steps + 1) current marked t →
      t.get? .effectiveType current = none → m.doc.hasStructure current = false →
      exec (m.markChain current) t = (.ok (), u) →
      exec ((m.chainLink current).run k) u = (.ok (some next), v) →
      WalksTo start s steps next (marked ++ [current]) v

variable (m k) in
/-- The questions that are posed, with the cache at that time, to answer a question. -/
inductive Poses : Question → Cache → Frame → Question → Cache → Prop where
  | resolving {path : Path} {topology : Topology} {site : Site} {s t u : Cache} {inner : Question} :
      m.siteAt? path = .ok (topology, site) → exec (m.prepare site.main) s = (.ok topology, t) →
      t.get? .resolution site.holder = none → site.holder ∉ t.resolving →
      (m.resolveSite site topology).Asks k (begun t site.holder) inner u →
      Poses (.inspect path) s (.reference site.holder) inner u
  | walking {node current : NodeId} {steps : Nat} {marked : List NodeId} {s t u v : Cache}
      {inner : Question} :
      s.get? .effectiveType node = none → m.WalksTo k node s (steps + 1) current marked t →
      t.get? .effectiveType current = none → m.doc.hasStructure current = false →
      exec (m.markChain current) t = (.ok (), u) → (m.chainLink current).Asks k u inner v →
      Poses (.effectiveType node) s (.chain (marked ++ [current])) inner v

variable (m k) in
/-- The answer to a question, for which `k` answers those that it poses. -/
def call : (question : Question) → CacheM question.Result
  | .inspect path => m.inspectWith k path
  | .effectiveType node => m.effectiveTypeWith k node

theorem answer_lookups_succ (depth : Nat) (question : Question) :
    (m.lookups (depth + 1)).answer question = m.call (m.lookups depth) question := by
  cases question <;> rfl

theorem exec_walkChain_congr {node current : NodeId} {steps : Nat} {marked : List NodeId}
    (hnone : s.get? .effectiveType node = none) (hw : m.WalksTo k node s steps current marked t)
    (h : ∀ frame inner u, m.Poses k (.effectiveType node) s frame inner u →
      exec (k.answer inner) u = exec (k'.answer inner) u) :
    exec (m.walkChain k node steps current marked) t =
      exec (m.walkChain k' node steps current marked) t := by
  induction steps generalizing current marked t with
  | zero =>
    rcases hn : t.get? .effectiveType current with _ | _ | type
    · rw [exec_walkChain_zero hn, exec_walkChain_zero hn]
    · rw [exec_walkChain_circular hn, exec_walkChain_circular hn]
    · rw [exec_walkChain_known hn, exec_walkChain_known hn]
  | succ steps ih =>
    rcases hn : t.get? .effectiveType current with _ | _ | type
    · cases hs : m.doc.hasStructure current with
      | true => rw [exec_walkChain_structured hn hs, exec_walkChain_structured hn hs]
      | false =>
        rw [exec_walkChain_succ hn hs, exec_walkChain_succ hn hs]
        rcases hm : exec (m.markChain current) t with ⟨e | _, u⟩
        · rfl
        · dsimp only
          have hlink := Inquiry.exec_run_congr fun inner v hasks =>
            h _ inner v (.walking hnone hw hn hs hm hasks)
          rw [← hlink]
          rcases hl : exec ((m.chainLink current).run k) u with ⟨e | _ | next, v⟩
          · rfl
          · rfl
          · exact ih (.link hw hn hs hm hl)
    · rw [exec_walkChain_circular hn, exec_walkChain_circular hn]
    · rw [exec_walkChain_known hn, exec_walkChain_known hn]

theorem exec_effectiveTypeWith_congr {node : NodeId}
    (h : ∀ frame inner t, m.Poses k (.effectiveType node) s frame inner t →
      exec (k.answer inner) t = exec (k'.answer inner) t) :
    exec (m.effectiveTypeWith k node) s = exec (m.effectiveTypeWith k' node) s := by
  rcases hn : s.get? .effectiveType node with _ | _ | type
  · obtain ⟨walk, t, hwalk, _, hex⟩ := exec_effectiveTypeWith_walk (k := k) hn
    obtain ⟨walk', t', hwalk', _, hex'⟩ := exec_effectiveTypeWith_walk (k := k') hn
    have hsame := exec_walkChain_congr hn .start h
    rw [hwalk, hwalk'] at hsame
    cases hsame
    rw [hex, hex']
  · rw [exec_effectiveTypeWith_circular hn, exec_effectiveTypeWith_circular hn]
  · rw [exec_effectiveTypeWith_known hn, exec_effectiveTypeWith_known hn]

theorem exec_inspectWith_congr (hs : Orderly m s) {path : Path}
    (h : ∀ frame inner t, m.Poses k (.inspect path) s frame inner t →
      exec (k.answer inner) t = exec (k'.answer inner) t) :
    exec (m.inspectWith k path) s = exec (m.inspectWith k' path) s := by
  cases hsite : m.siteAt? path with
  | error e =>
    obtain ⟨t, hex, _⟩ := exec_inspectWith_error hs hsite
    rw [hex, hex]
  | ok found =>
    obtain ⟨topology, site⟩ := found
    obtain ⟨t, hprep, hex, _⟩ := exec_inspectWith_ok k hs hsite
    obtain ⟨t', hprep', hex', _⟩ := exec_inspectWith_ok k' hs hsite
    obtain rfl : t = t' := congrArg Prod.snd (hprep.symm.trans hprep')
    rw [hex, hex', exec_inspectSite, exec_inspectSite]
    cases hr : t.get? .resolution site.holder with
    | some r => rfl
    | none =>
      dsimp only
      by_cases hfree : site.holder ∈ t.resolving
      · rw [if_pos hfree, if_pos hfree]
      · have hrun := Inquiry.exec_run_congr fun inner u hasks =>
          h _ inner u (.resolving hsite hprep hr hfree hasks)
        rw [if_neg hfree, if_neg hfree, ← hrun]

/-- The answer to a question depends only on the answers to those that it poses. -/
theorem exec_call_congr (hs : Orderly m s)
    (h : ∀ frame inner t, m.Poses k question s frame inner t →
      exec (k.answer inner) t = exec (k'.answer inner) t) :
    exec (m.call k question) s = exec (m.call k' question) s := by
  cases question with
  | inspect path => exact exec_inspectWith_congr hs h
  | effectiveType node => exact exec_effectiveTypeWith_congr h

/-! ## Frames -/

variable (m) in
/-- Fewer nodes are without mark or fewer holders are free, and no others are. -/
structure Shrinks (s t : Cache) : Prop where
  marks : ∀ node, s.get? .effectiveType node = some .inProgress →
    t.get? .effectiveType node = some .inProgress
  resolving : ∀ holder ∈ s.resolving, holder ∈ t.resolving
  strictly : (∃ node < m.doc.size, s.get? .effectiveType node ≠ some .inProgress ∧
      t.get? .effectiveType node = some .inProgress) ∨
    ∃ holder < m.doc.size, holder ∉ s.resolving ∧ holder ∈ t.resolving

theorem Shrinks.room_lt (h : m.Shrinks s t) : m.room t < m.room s := by
  have hunmarked : ∀ node ∈ List.range m.doc.size,
      decide (t.get? .effectiveType node ≠ some .inProgress) = true →
        decide (s.get? .effectiveType node ≠ some .inProgress) = true := by
    intro node _ hnode
    exact decide_eq_true fun hmark => of_decide_eq_true hnode (h.marks node hmark)
  have hunresolved : ∀ node ∈ List.range m.doc.size, decide (node ∉ t.resolving) = true →
      decide (node ∉ s.resolving) = true := by
    intro node _ hnode
    exact decide_eq_true fun hmem => of_decide_eq_true hnode (h.resolving node hmem)
  have hmarks : m.unmarked t ≤ m.unmarked s := List.countP_mono_left hunmarked
  have hholders : m.unresolved t ≤ m.unresolved s := List.countP_mono_left hunresolved
  rcases h.strictly with ⟨node, hsize, hs, ht⟩ | ⟨holder, hsize, hs, ht⟩
  · have hlt : m.unmarked t < m.unmarked s :=
      countP_lt_of_imp hunmarked (List.mem_range.mpr hsize) (decide_eq_true hs)
        (decide_eq_false (not_not_intro ht))
    exact Nat.add_lt_add_of_le_of_lt hholders hlt
  · have hlt : m.unresolved t < m.unresolved s :=
      countP_lt_of_imp hunresolved (List.mem_range.mpr hsize) (decide_eq_true hs)
        (decide_eq_false (not_not_intro ht))
    exact Nat.add_lt_add_of_lt_of_le hlt hmarks

variable (m) in
/-- What a waiting question adds to the holders that are being resolved and to the marks. -/
structure Deeper (frame : Frame) (s t : Cache) : Prop where
  resolving : t.resolving = frame.holders ++ s.resolving
  marks : ∀ node, t.get? .effectiveType node = some .inProgress ↔
    s.get? .effectiveType node = some .inProgress ∨ node ∈ frame.nodes
  freeHolders : ∀ holder ∈ frame.holders, holder ∉ s.resolving ∧ holder < m.doc.size
  freeNodes : ∀ node ∈ frame.nodes, s.get? .effectiveType node ≠ some .inProgress ∧
    node < m.doc.size
  nodup : frame.holders.Nodup ∧ frame.nodes.Nodup
  holds : frame.holders ++ frame.nodes ≠ []
  unsearched : frame.searched = []

theorem Deeper.shrinks (h : m.Deeper frame s t) : m.Shrinks s t := by
  refine ⟨fun node hmark => (h.marks node).mpr (.inl hmark), fun holder hh => ?_, ?_⟩
  · rw [h.resolving]
    exact List.mem_append_right _ hh
  · obtain ⟨node, hnode⟩ := List.exists_mem_of_ne_nil _ h.holds
    rcases List.mem_append.mp hnode with hnode | hnode
    · obtain ⟨hfree, hsize⟩ := h.freeHolders node hnode
      refine .inr ⟨node, hsize, hfree, ?_⟩
      rw [h.resolving]
      exact List.mem_append_left _ hnode
    · obtain ⟨hfree, hsize⟩ := h.freeNodes node hnode
      exact .inl ⟨node, hsize, hfree, (h.marks node).mpr (.inr hnode)⟩

namespace Theory

variable {T : Theory m} {depth : Nat}

variable (T) in
/-- The theory speaks of the question. -/
def Covers : Question → Prop
  | .inspect path => T.path path
  | .effectiveType node => T.node node

/-- The questions of an inquiry that respects a theory are those that the theory speaks of. -/
theorem Answers.asks {α : Type} {x : Inquiry α} {post : α → Prop} (hk : T.Answers depth k)
    (hx : x.Meets T.contract post) (hs : T.Ready depth s) (h : x.Asks k s question t) :
    T.Covers question ∧ T.Ready depth t ∧ Extends s t := by
  induction h with
  | inspect => exact ⟨hx.1, hs, .refl _⟩
  | effectiveType => exact ⟨hx.1, hs, .refl _⟩
  | afterInspect hex _ ih =>
    obtain ⟨hready, hext, hend⟩ := hk.inspect _ hx.1 _ hs
    rw [hex] at hready hext hend
    obtain ⟨hcovers, hready', hext'⟩ := ih (hx.2 _ hend) hready
    exact ⟨hcovers, hready', hext.trans _ _ _ hext'⟩
  | afterEffectiveType hex _ ih =>
    obtain ⟨hready, hext, hend⟩ := hk.effectiveType _ hx.1 _ hs
    rw [hex] at hready hext hend
    obtain ⟨hcovers, hready', hext'⟩ := ih (hx.2 _ hend) hready
    exact ⟨hcovers, hready', hext.trans _ _ _ hext'⟩

/-! ## Walks -/

theorem Marks.of_extends (h : Extends s t) : Marks [] s t :=
  ⟨fun node => by simp [h.marks node], h.held, h.origins, h.remembers, h.resolving⟩

theorem Marks.trans {first second : List NodeId} (h : Marks first s t)
    (h' : Marks second t u) : Marks (first ++ second) s u := by
  refine ⟨fun node => ?_, fun holder hh => ?_, fun node => (h'.origins node).trans (h.origins node),
    h.remembers.trans h'.remembers, h'.resolving.trans h.resolving⟩
  · rw [h'.marks, h.marks, List.mem_append, or_assoc]
  · rw [h'.held holder (h.resolving ▸ hh), h.held holder hh]

/-- What holds while the chain of a node is walked. -/
structure Walking (T : Theory m) (depth : Nat) (s : Cache) (current : NodeId) (marked : List NodeId)
    (t : Cache) : Prop where
  node : T.node current
  ready : T.Ready (depth + 1) t
  marks : Marks marked s t
  free : ∀ node ∈ marked, s.get? .effectiveType node ≠ some .inProgress ∧ node < m.doc.size
  nodup : marked.Nodup

/-- One more node is marked. -/
theorem Walking.mark {current owner : NodeId} {marked : List NodeId}
    (h : Walking T depth s current marked t) (ho : m.doc.owner? current = some owner)
    (hn : t.get? .effectiveType current = none)
    (hst : t.Stored .effectiveType owner current .inProgress u) :
    Marks (marked ++ [current]) s u ∧
      (∀ node ∈ marked ++ [current],
        s.get? .effectiveType node ≠ some .inProgress ∧ node < m.doc.size) ∧
      (marked ++ [current]).Nodup := by
  have hunmarked : t.get? .effectiveType current ≠ some .inProgress := by
    rw [hn]
    exact fun hc => by cases hc
  refine ⟨h.marks.trans (.cons hn hst (.refl u) (.nil u)), fun node hnode => ?_, ?_⟩
  · rcases List.mem_append.mp hnode with hnode | hnode
    · exact h.free node hnode
    · rw [List.mem_singleton.mp hnode]
      exact ⟨fun hmark => hunmarked ((h.marks.marks current).mpr (.inl hmark)),
        Document.lt_size_of_owner? ho⟩
  · refine List.nodup_append.mpr ⟨h.nodup, by simp, fun node hnode other hother heq => hunmarked ?_⟩
    rw [← List.mem_singleton.mp hother, ← heq]
    exact (h.marks.marks node).mpr (.inr hnode)

theorem walking_of_walksTo (hT : T.Lawful) (hk : T.Answers depth k) {start current : NodeId}
    {steps : Nat} {marked : List NodeId} (hnode : T.node start) (hs : T.Ready (depth + 1) s)
    (h : m.WalksTo k start s steps current marked t) : Walking T depth s current marked t := by
  induction h with
  | start =>
    have hcount := Extends.count s countWalk
    exact ⟨hnode, ⟨hs.agrees.count _, hcount.room_eq ▸ hs.room⟩, .of_extends hcount, by simp,
      List.nodup_nil⟩
  | link _ hn hc hm hlink ih =>
    obtain ⟨owner, ho, hst, _, hrun⟩ := link_cases hT hk ih.node ih.ready hn hc hm
    obtain ⟨hready, hext, hend⟩ := hrun _ _ hlink
    obtain ⟨hmarks, hfree, hnodup⟩ := ih.mark ho hn hst
    exact ⟨hend.1, hready, List.append_nil (_ ++ _) ▸ hmarks.trans (.of_extends hext),
      hfree, hnodup⟩

/-! ## Depth -/

theorem ready_of_prepare {definition : NodeId} {topology : Topology} (hs : T.Ready depth s)
    (hex : exec (m.prepare definition) s = (.ok topology, t)) : T.Ready depth t ∧ Extends s t := by
  cases hd : m.doc.isDefinition definition with
  | false =>
    rw [exec_prepare_undefined hd] at hex
    cases hex
  | true =>
    rcases prepare_cases hs.agrees.orderly hd with ⟨_, _, _, _, hex', ht, hst, _⟩ | ⟨_, _, hex'⟩
    all_goals
      rw [hex] at hex'
      cases hex'
    have hext := Extends.steady hst
    exact ⟨⟨hs.agrees.steady ht hst, hext.room_eq ▸ hs.room⟩, hext⟩

/-- A question that is posed has its frame added to the cache, which leaves less room. -/
theorem deeper_of_poses (hT : T.Lawful) (hk : T.Answers depth k) (hcovers : T.Covers question)
    (hs : T.Ready (depth + 1) s) (h : m.Poses k question s frame inner t) :
    T.Covers inner ∧ T.Agrees t ∧ m.Deeper frame s t := by
  cases h with
  | @resolving path topology site s u t inner hsite hprep _ hfree hasks =>
    obtain ⟨hu, hext⟩ := ready_of_prepare hs hprep
    obtain ⟨hinner, ht, hext'⟩ := hk.asks (hT.site path topology site hcovers hsite)
      (hu.begun hsite hfree) hasks
    have hsize : site.holder < m.doc.size := Document.lt_size_of_owner? (owner?_holder hsite)
    refine ⟨hinner, ht.agrees, ?_, fun node => ?_, fun holder hholder => ?_, by simp [Frame.nodes],
      by simp [Frame.holders, Frame.nodes], by simp [Frame.holders], rfl⟩
    · rw [hext'.resolving, ← hext.resolving]
      rfl
    · rw [hext'.marks, ← hext.marks]
      simp [Frame.nodes, begun]
    · rw [List.mem_singleton.mp hholder, ← hext.resolving]
      exact ⟨hfree, hsize⟩
  | walking _ hwalk hn hc hm hasks =>
    have hwalking := walking_of_walksTo hT hk hcovers hs hwalk
    obtain ⟨owner, ho, hst, hready, _⟩ := link_cases hT hk hwalking.node hwalking.ready hn hc hm
    obtain ⟨hmarks, hfree, hnodup⟩ := hwalking.mark ho hn hst
    obtain ⟨hinner, ht, hext⟩ := hk.asks (hT.link _ hwalking.node (by rw [ho]; rfl) hc) hready hasks
    refine ⟨hinner, ht.agrees, hext.resolving.trans hmarks.resolving, fun node => ?_,
      by simp [Frame.holders],
      hfree, ⟨List.nodup_nil, hnodup⟩, by simp [Frame.holders, Frame.nodes], rfl⟩
    rw [hext.marks, hmarks.marks]
    rfl

/-- Beyond the number of questions that can be nested, the depth does not matter. -/
theorem exec_lookups_of_le (hT : T.Lawful) {depth' : Nat} (hle : depth ≤ depth')
    (hcovers : T.Covers question) (hs : T.Ready depth s) :
    exec ((m.lookups depth').answer question) s = exec ((m.lookups depth).answer question) s := by
  induction depth generalizing depth' question s with
  | zero => exact absurd hs.room (Nat.not_lt_zero _)
  | succ depth ih =>
    obtain ⟨depth', rfl⟩ := Nat.exists_eq_succ_of_ne_zero (Nat.ne_zero_of_lt hle)
    rw [answer_lookups_succ, answer_lookups_succ]
    refine (exec_call_congr hs.agrees.orderly fun frame inner t hposes => ?_).symm
    obtain ⟨hinner, ht, hdeeper⟩ := deeper_of_poses hT (answers_lookups hT depth) hcovers hs hposes
    refine (ih (Nat.le_of_succ_le_succ hle) hinner ⟨ht, ?_⟩).symm
    exact Nat.lt_of_lt_of_le hdeeper.shrinks.room_lt (Nat.le_of_lt_succ hs.room)

/-- The recursion by which questions are answered. -/
theorem exec_ask (hT : T.Lawful) (question : Question) (hcovers : T.Covers question)
    (hs : T.Agrees s) :
    exec (m.ask.answer question) s = exec (m.call m.ask question) s := by
  have hdeeper := exec_lookups_of_le hT (Nat.le_succ m.nesting) hcovers ⟨hs, room_le s⟩
  rw [answer_lookups_succ] at hdeeper
  exact hdeeper.symm

end Theory

end Model

end SchemaRefs
