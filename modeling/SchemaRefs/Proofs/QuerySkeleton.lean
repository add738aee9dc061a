import SchemaRefs.Proofs.Subqueries

/-!
# The skeleton of a topology

What of a scope is fixed when it is opened is its shape: the number, the query, the body of the
`SELECT` and the enclosing scope. The shapes of a draft and its table of query nodes are its
skeleton. A sound skeleton reflects the nesting of the document:

* the scope of a query node leads to the innermost `SELECT` around it (`Sound.entry`);
* what is numbered below a `SELECT` lies within one of its sub-queries (`Sound.cover`);
* chains of enclosing scopes are short (`Sound.chain`).

A query that is about to be visited is open: nothing within it is numbered yet. Opening a scope and
sharing one with a `SET` keep skeletons sound (`Sound.openScope`, `Sound.assign`), and a visit
leaves all other open queries open (`Open.stays`).
-/

namespace SchemaRefs

/-- What of a scope is fixed when it is opened. -/
structure ScopeShape where
  number : Nat
  node : NodeId
  select : NodeId
  next : Option Nat

/-- The shapes of all scopes, and the scope index of every node that stands for a query. -/
structure Skeleton where
  shapes : List ScopeShape
  table : List (NodeId × Nat)

namespace Skeleton

variable (doc : Document) {count i index : Nat} {node other q : NodeId} {next : Option Nat}
  {shape : ScopeShape}

/-- The `SELECT` of a scope lies around a node. -/
def Encloses (shape : ScopeShape) (node : NodeId) : Prop :=
  doc.Within shape.select node ∧ shape.select ≠ node

/-- The innermost scope around a node, if there is one. -/
def Innermost (sk : Skeleton) (node : NodeId) : Option Nat → Prop
  | none => ∀ shape ∈ sk.shapes, ¬ Encloses doc shape node
  | some index => ∃ shape, sk.shapes[index]? = some shape ∧ Encloses doc shape node ∧
      ∀ other ∈ sk.shapes, Encloses doc other node → doc.Within other.select shape.select

/-- At most `count` scopes enclose each other from an index on. -/
def ChainWithin (sk : Skeleton) : (count : Nat) → Option Nat → Prop
  | _, none => True
  | 0, some _ => False
  | count + 1, some index =>
    ∃ shape, sk.shapes[index]? = some shape ∧ sk.ChainWithin count shape.next

/-- The skeleton reflects the nesting of queries below the query `main`. -/
structure Sound (main : NodeId) (sk : Skeleton) : Prop where
  number : ∀ (i : Nat) shape, sk.shapes[i]? = some shape → shape.number = i + 1
  functional : ∀ q i j, (q, i) ∈ sk.table → (q, j) ∈ sk.table → i = j
  listed : ∀ (i : Nat) shape, sk.shapes[i]? = some shape →
    (shape.node, i) ∈ sk.table ∧ (shape.select, i) ∈ sk.table
  /-- A query node contains the `SELECT` of its scope, and the scope leads to the innermost one
  around the node. -/
  entry : ∀ q i, (q, i) ∈ sk.table → ∃ shape, sk.shapes[i]? = some shape ∧
    doc.Within q shape.select ∧ doc.Within main q ∧ sk.Innermost doc q shape.next
  body : ∀ shape ∈ sk.shapes, doc.step? shape.select = some (.key "SELECT") ∨
    doc.step? shape.select = some (.key "projection")
  next_lt : ∀ (i : Nat) (shape : ScopeShape) (j : Nat), sk.shapes[i]? = some shape →
    shape.next = some j → j < i
  chain : ∀ i, i < sk.shapes.length → sk.ChainWithin (maxQueryNesting + 1) (some i)
  /-- A query node below a `SELECT` belongs to one of its sub-queries. -/
  cover : ∀ shape ∈ sk.shapes, ∀ q i, (q, i) ∈ sk.table → doc.Within shape.select q →
    q = shape.select ∨ ∃ sub ∈ doc.subqueries shape.select, doc.Within sub q

/-- The query `node` can be visited: nothing within it is numbered, and `next` is the scope around
it. -/
structure Open (main : NodeId) (sk : Skeleton) (node : NodeId) (next : Option Nat) (count : Nat) :
    Prop where
  fresh : ∀ q i, (q, i) ∈ sk.table → ¬ doc.Within node q
  innermost : sk.Innermost doc node next
  placed : ∀ shape ∈ sk.shapes, Encloses doc shape node →
    ∃ sub ∈ doc.subqueries shape.select, doc.Within sub node
  within : doc.Within main node
  chain : sk.ChainWithin count next

/-- All scopes of a skeleton are scopes of the other one, with the same indices. -/
def ShapesKept (sk sk' : Skeleton) : Prop :=
  ∀ (i : Nat) (shape : ScopeShape), sk.shapes[i]? = some shape → sk'.shapes[i]? = some shape

/-- What a visit of `node` does to a skeleton: it only adds, and all that it adds is within
`node`. -/
structure Grows (node : NodeId) (sk sk' : Skeleton) : Prop where
  shapes : ShapesKept sk sk'
  table : ∀ q i, (q, i) ∈ sk.table → (q, i) ∈ sk'.table
  added : ∀ q i, (q, i) ∈ sk'.table → (q, i) ∈ sk.table ∨ (doc.Within node q ∧ sk.shapes.length ≤ i)

variable {doc} {main : NodeId} {sk sk' : Skeleton}

/-! ## Chains -/

theorem ChainWithin.grow {index : Option Nat} (hshapes : ShapesKept sk sk')
    (h : sk.ChainWithin count index) : sk'.ChainWithin count index := by
  induction count generalizing index with
  | zero =>
    cases index with
    | none => trivial
    | some index => exact h.elim
  | succ count ih =>
    cases index with
    | none => trivial
    | some index =>
      obtain ⟨shape, hs, hc⟩ := h
      exact ⟨shape, hshapes index shape hs, ih hc⟩

theorem ChainWithin.mono {count' : Nat} {index : Option Nat} (hle : count ≤ count')
    (h : sk.ChainWithin count index) : sk.ChainWithin count' index := by
  induction count generalizing index count' with
  | zero =>
    cases index with
    | none => cases count' <;> trivial
    | some index => exact h.elim
  | succ count ih =>
    cases index with
    | none => cases count' <;> trivial
    | some index =>
      obtain ⟨shape, hs, hc⟩ := h
      obtain ⟨rest, rfl⟩ : ∃ rest, count' = rest + 1 := ⟨count' - 1, by omega⟩
      exact ⟨shape, hs, ih (by omega) hc⟩

/-! ## Open queries -/

theorem Sound.select_mem (hs : sk.Sound doc main) (h : shape ∈ sk.shapes) :
    ∃ i, (shape.select, i) ∈ sk.table := by
  obtain ⟨i, hi⟩ := List.mem_iff_getElem?.mp h
  exact ⟨i, (hs.listed i shape hi).2⟩

/-- The same scopes lie around a query that can be visited and around what is within it. -/
theorem Open.encloses_iff {inner : NodeId} (ho : Open doc main sk node next count)
    (hs : sk.Sound doc main) (hw : doc.Within node inner) (hm : shape ∈ sk.shapes) :
    Encloses doc shape inner ↔ Encloses doc shape node := by
  obtain ⟨i, hi⟩ := hs.select_mem hm
  have hfresh := ho.fresh _ _ hi
  constructor
  · rintro ⟨hin, _⟩
    rcases Document.within_total hin hw with h | h
    · refine ⟨h, fun heq => hfresh ?_⟩
      rw [heq]
      exact .refl
    · exact absurd h hfresh
  · rintro ⟨hin, hne⟩
    refine ⟨hin.trans hw, fun heq => hfresh ?_⟩
    rw [heq]
    exact hw

theorem Innermost.congr {a b : NodeId} (h : sk.Innermost doc a next)
    (hiff : ∀ shape ∈ sk.shapes, Encloses doc shape b ↔ Encloses doc shape a) :
    sk.Innermost doc b next := by
  cases next with
  | none => exact fun shape hm he => h shape hm ((hiff shape hm).mp he)
  | some index =>
    obtain ⟨shape, hi, he, hall⟩ := h
    refine ⟨shape, hi, (hiff shape (List.mem_of_getElem? hi)).mpr he, fun other hm ho => ?_⟩
    exact hall other hm ((hiff other hm).mp ho)

theorem Innermost.grow (h : sk.Innermost doc node next) (hshapes : ShapesKept sk sk')
    (hnew : ∀ shape ∈ sk'.shapes, Encloses doc shape node → shape ∈ sk.shapes) :
    sk'.Innermost doc node next := by
  cases next with
  | none => exact fun shape hm he => h shape (hnew shape hm he) he
  | some index =>
    obtain ⟨shape, hi, he, hall⟩ := h
    exact ⟨shape, hshapes index shape hi, he, fun other hm ho => hall other (hnew other hm ho) ho⟩

theorem Open.descend {inner : NodeId}
    (ho : Open doc main sk node next count) (hs : sk.Sound doc main) (hw : doc.Within node inner) :
    Open doc main sk inner next count where
  fresh := fun q i hq hin => ho.fresh q i hq (hw.trans hin)
  innermost := ho.innermost.congr fun _ hm => ho.encloses_iff hs hw hm
  placed := by
    intro shape hm he
    obtain ⟨sub, hsub, hin⟩ := ho.placed shape hm ((ho.encloses_iff hs hw hm).mp he)
    exact ⟨sub, hsub, hin.trans hw⟩
  within := ho.within.trans hw
  chain := ho.chain

theorem Sound.lt_length (hs : sk.Sound doc main) (h : (q, i) ∈ sk.table) :
    i < sk.shapes.length := by
  obtain ⟨shape, hi, _⟩ := hs.entry q i h
  exact (List.getElem?_eq_some_iff.mp hi).1

theorem Grows.refl (node : NodeId) (sk : Skeleton) : Grows doc node sk sk :=
  ⟨fun _ _ h => h, fun _ _ h => h, fun _ _ h => .inl h⟩

theorem Grows.length_le (hg : Grows doc node sk sk') :
    sk.shapes.length ≤ sk'.shapes.length := by
  rcases Nat.lt_or_ge sk'.shapes.length sk.shapes.length with h | h
  · have := hg.shapes _ _ (List.getElem?_eq_getElem h)
    rw [List.getElem?_eq_none (Nat.le_refl _)] at this
    cases this
  · exact h

/-- The `SELECT` of a new scope lies within the visited node. -/
theorem Grows.mem_or_within (hg : Grows doc node sk sk') (hs : sk.Sound doc main)
    (hs' : sk'.Sound doc main) (hm : shape ∈ sk'.shapes) :
    shape ∈ sk.shapes ∨ doc.Within node shape.select := by
  obtain ⟨i, hi⟩ := List.mem_iff_getElem?.mp hm
  rcases hg.added _ _ (hs'.listed i shape hi).2 with h | h
  · have hlt := hs.lt_length h
    have hget := hg.shapes _ _ (List.getElem?_eq_getElem hlt)
    rw [hi] at hget
    exact .inl (Option.some.inj hget ▸ List.getElem_mem hlt)
  · exact .inr h.1

/-- A visit leaves the queries open that have nothing in common with the visited one. -/
theorem Open.stays (ho : Open doc main sk other next count) (hs : sk.Sound doc main)
    (hs' : sk'.Sound doc main) (hg : Grows doc node sk sk') (hap : doc.Apart node other) :
    Open doc main sk' other next count := by
  have hnew : ∀ shape ∈ sk'.shapes, Encloses doc shape other → shape ∈ sk.shapes := by
    intro shape hm he
    rcases hg.mem_or_within hs hs' hm with h | h
    · exact h
    · exact absurd (h.trans he.1) hap.1
  refine ⟨fun q i hq hin => ?_, ho.innermost.grow hg.shapes hnew, fun shape hm he => ?_, ho.within,
    ho.chain.grow hg.shapes⟩
  · rcases hg.added q i hq with h | h
    · exact ho.fresh q i h hin
    · exact hap.not_within h.1 hin
  · exact ho.placed shape (hnew shape hm he) he

/-! ## Adding scopes -/

/-- The skeleton with another node for a scope. -/
def assign (sk : Skeleton) (node : NodeId) (index : Nat) : Skeleton :=
  { sk with table := (node, index) :: sk.table }

/-- The skeleton with a scope at the end. -/
def openScope (sk : Skeleton) (node select : NodeId) (next : Option Nat) : Skeleton where
  shapes := sk.shapes ++ [⟨sk.shapes.length + 1, node, select, next⟩]
  table := (select, sk.shapes.length) :: (node, sk.shapes.length) :: sk.table

section Opening

variable {node select : NodeId} {next : Option Nat} {count : Nat}

theorem shapesKept_openScope : ShapesKept sk (sk.openScope node select next) := by
  intro i shape h
  rw [openScope, List.getElem?_append_left (List.getElem?_eq_some_iff.mp h).1, h]

theorem getElem?_openScope : (sk.openScope node select next).shapes[sk.shapes.length]? =
    some ⟨sk.shapes.length + 1, node, select, next⟩ := by
  simp [openScope]

theorem openScope_cases (h : (sk.openScope node select next).shapes[i]? = some shape) :
    sk.shapes[i]? = some shape ∨
      (i = sk.shapes.length ∧ shape = ⟨sk.shapes.length + 1, node, select, next⟩) := by
  rcases Nat.lt_or_ge i sk.shapes.length with hi | hi
  · rw [openScope, List.getElem?_append_left hi] at h
    exact .inl h
  · have hlt := (List.getElem?_eq_some_iff.mp h).1
    simp only [openScope, List.length_append, List.length_singleton] at hlt
    obtain rfl : i = sk.shapes.length := by omega
    rw [getElem?_openScope] at h
    exact .inr ⟨rfl, (Option.some.inj h).symm⟩

theorem mem_shapes_openScope (h : shape ∈ (sk.openScope node select next).shapes) :
    shape ∈ sk.shapes ∨ shape = ⟨sk.shapes.length + 1, node, select, next⟩ := by
  simpa [openScope] using h

theorem mem_table_openScope (h : (q, i) ∈ (sk.openScope node select next).table) :
    (q, i) ∈ sk.table ∨ (i = sk.shapes.length ∧ (q = select ∨ q = node)) := by
  simp only [openScope, List.mem_cons, Prod.mk.injEq] at h
  rcases h with ⟨rfl, rfl⟩ | ⟨rfl, rfl⟩ | h
  · exact .inr ⟨rfl, .inl rfl⟩
  · exact .inr ⟨rfl, .inr rfl⟩
  · exact .inl h

theorem innermost_openScope {index : Option Nat} (h : sk.Innermost doc q index)
    (hq : ¬ (doc.Within select q ∧ select ≠ q)) :
    (sk.openScope node select next).Innermost doc q index := by
  refine h.grow shapesKept_openScope fun shape hm he => ?_
  rcases mem_shapes_openScope hm with hm | rfl
  · exact hm
  · exact absurd he hq

theorem between_openScope (hw : doc.Within node select) (h : q = select ∨ q = node) :
    doc.Within node q ∧ doc.Within q select := by
  rcases h with rfl | rfl
  · exact ⟨hw, .refl⟩
  · exact ⟨.refl, hw⟩

/-- The new query nodes lead to the scope around the query, and the old ones to where they led
before. -/
theorem Sound.entry_openScope (hs : sk.Sound doc main) (ho : Open doc main sk node next count)
    (hw : doc.Within node select) (h : (q, i) ∈ (sk.openScope node select next).table) :
    ∃ shape, (sk.openScope node select next).shapes[i]? = some shape ∧ doc.Within q shape.select ∧
      doc.Within main q ∧ (sk.openScope node select next).Innermost doc q shape.next := by
  rcases mem_table_openScope h with hold | ⟨rfl, hq⟩
  · obtain ⟨shape, hi, hsel, hmain, hin⟩ := hs.entry q i hold
    refine ⟨shape, shapesKept_openScope i shape hi, hsel, hmain, innermost_openScope hin ?_⟩
    rintro ⟨hsq, _⟩
    exact ho.fresh q i hold (hw.trans hsq)
  · obtain ⟨hnq, hqs⟩ := between_openScope hw hq
    refine ⟨_, getElem?_openScope, hqs, ho.within.trans hnq, innermost_openScope ?_ ?_⟩
    · exact (ho.descend hs hnq).innermost
    · rintro ⟨hsq, hne⟩
      exact hne (hsq.antisymm hqs)

theorem Sound.chain_openScope (hs : sk.Sound doc main) (hc : sk.ChainWithin count next)
    (hcount : count ≤ maxQueryNesting) (hi : i < (sk.openScope node select next).shapes.length) :
    (sk.openScope node select next).ChainWithin (maxQueryNesting + 1) (some i) := by
  rcases Nat.lt_or_ge i sk.shapes.length with hlt | hge
  · exact (hs.chain i hlt).grow shapesKept_openScope
  · obtain rfl : i = sk.shapes.length := by
      simp only [openScope, List.length_append, List.length_singleton] at hi
      omega
    exact ⟨_, getElem?_openScope, (hc.mono hcount).grow shapesKept_openScope⟩

/-- A new query node lies in a sub-query of every old `SELECT` around it, as the query that is
opened does. -/
theorem Sound.cover_openScope (hs : sk.Sound doc main) (ho : Open doc main sk node next count)
    (hw : doc.Within node select) (hm : shape ∈ (sk.openScope node select next).shapes)
    (hq : (q, i) ∈ (sk.openScope node select next).table) (hin : doc.Within shape.select q) :
    q = shape.select ∨ ∃ sub ∈ doc.subqueries shape.select, doc.Within sub q := by
  rcases mem_shapes_openScope hm with hm | rfl <;> rcases mem_table_openScope hq with hold
    | ⟨_, hnew⟩
  · exact hs.cover shape hm q i hold hin
  · have hopen := ho.descend hs (between_openScope hw hnew).1
    obtain ⟨k, hk⟩ := hs.select_mem hm
    have hne : shape.select ≠ q := by
      rintro rfl
      exact hopen.fresh _ _ hk .refl
    exact .inr (hopen.placed shape hm ⟨hin, hne⟩)
  · exact absurd (hw.trans hin) (ho.fresh q i hold)
  · exact .inl ((between_openScope hw hnew).2.antisymm hin)

theorem Sound.openScope (hs : sk.Sound doc main) (ho : Open doc main sk node next count)
    (hcount : count ≤ maxQueryNesting) (hw : doc.Within node select)
    (hbody : doc.step? select = some (.key "SELECT") ∨
      doc.step? select = some (.key "projection")) :
    (sk.openScope node select next).Sound doc main where
  number := by
    intro i shape hi
    rcases openScope_cases hi with h | ⟨rfl, rfl⟩
    · exact hs.number i shape h
    · rfl
  functional := by
    intro q i j hqi hqj
    rcases mem_table_openScope hqi with hi | ⟨hi, hq⟩ <;>
      rcases mem_table_openScope hqj with hj | ⟨hj, hq'⟩
    · exact hs.functional q i j hi hj
    · exact absurd (between_openScope hw hq').1 (ho.fresh q i hi)
    · exact absurd (between_openScope hw hq).1 (ho.fresh q j hj)
    · rw [hi, hj]
  listed := by
    intro i shape hi
    rcases openScope_cases hi with h | ⟨rfl, rfl⟩
    · obtain ⟨h₁, h₂⟩ := hs.listed i shape h
      exact ⟨List.mem_cons_of_mem _ (List.mem_cons_of_mem _ h₁),
        List.mem_cons_of_mem _ (List.mem_cons_of_mem _ h₂)⟩
    · exact ⟨List.mem_cons_of_mem _ List.mem_cons_self, List.mem_cons_self⟩
  entry := fun _ _ hq => hs.entry_openScope ho hw hq
  body := by
    intro shape hm
    rcases mem_shapes_openScope hm with hm | rfl
    · exact hs.body shape hm
    · exact hbody
  next_lt := by
    intro i shape j hi hj
    rcases openScope_cases hi with h | ⟨rfl, rfl⟩
    · exact hs.next_lt i shape j h hj
    · have hin := ho.innermost
      simp only at hj
      rw [hj] at hin
      obtain ⟨shape, hget, _⟩ := hin
      exact (List.getElem?_eq_some_iff.mp hget).1
  chain := fun _ hi => hs.chain_openScope ho.chain hcount hi
  cover := fun _ hm _ _ hq hin => hs.cover_openScope ho hw hm hq hin

theorem grows_openScope (hw : doc.Within node select) :
    Grows doc node sk (sk.openScope node select next) := by
  refine ⟨shapesKept_openScope, fun q i h => ?_, fun q i h => ?_⟩
  · exact List.mem_cons_of_mem _ (List.mem_cons_of_mem _ h)
  · rcases mem_table_openScope h with h | ⟨rfl, rfl | rfl⟩
    · exact .inl h
    · exact .inr ⟨hw, Nat.le_refl _⟩
    · exact .inr ⟨.refl, Nat.le_refl _⟩

/-- The sub-queries of a `SELECT` are open when its scope has been opened. -/
theorem Open.sub (ho : Open doc main sk node next count) (hs : sk.Sound doc main)
    (hw : doc.Within node select) {sub : NodeId} (hsub : sub ∈ doc.subqueries select) :
    Open doc main (sk.openScope node select next) sub (some sk.shapes.length) (count + 1) := by
  have hin := Document.within_of_mem_subqueries hsub
  have hold := ho.descend hs (hw.trans hin.1)
  refine ⟨fun q i hq hqw => ?_, ⟨_, getElem?_openScope, hin, fun other hm he => ?_⟩,
    fun shape hm he => ?_, hold.within,
    ⟨_, getElem?_openScope, ho.chain.grow shapesKept_openScope⟩⟩
  · rcases mem_table_openScope hq with hq | ⟨rfl, rfl | rfl⟩
    · exact hold.fresh q i hq hqw
    · exact hin.2 (hin.1.antisymm hqw)
    · exact hin.2 (hin.1.antisymm (hqw.trans hw))
  · rcases mem_shapes_openScope hm with hm | rfl
    · exact ((ho.encloses_iff hs (hw.trans hin.1) hm).mp he).1.trans hw
    · exact .refl
  · rcases mem_shapes_openScope hm with hm | rfl
    · exact hold.placed shape hm he
    · exact ⟨sub, hsub, .refl⟩

end Opening

/-- A scope can be shared with a node that contains its `SELECT` and has the same scope around
it. -/
theorem Sound.assign (hs : sk.Sound doc main) (hi : sk.shapes[index]? = some shape)
    (hnew : ∀ i, (node, i) ∉ sk.table) (hsel : doc.Within node shape.select)
    (hmain : doc.Within main node) (hin : sk.Innermost doc node shape.next)
    (hcover : ∀ shape ∈ sk.shapes, doc.Within shape.select node →
      ∃ sub ∈ doc.subqueries shape.select, doc.Within sub node) :
    (sk.assign node index).Sound doc main := by
  have hmem : ∀ {q i}, (q, i) ∈ (sk.assign node index).table →
      (q, i) ∈ sk.table ∨ (q = node ∧ i = index) := by
    intro q i h
    simp only [Skeleton.assign, List.mem_cons, Prod.mk.injEq] at h
    exact h.symm
  refine ⟨hs.number, ?_, ?_, ?_, hs.body, hs.next_lt, ?_, ?_⟩
  · intro q i j hqi hqj
    rcases hmem hqi with h | ⟨h, hi⟩ <;> rcases hmem hqj with h' | ⟨h', hj⟩
    · exact hs.functional q i j h h'
    · exact absurd (h' ▸ h) (hnew i)
    · exact absurd (h ▸ h') (hnew j)
    · rw [hi, hj]
  · intro i shape h
    obtain ⟨h₁, h₂⟩ := hs.listed i shape h
    exact ⟨List.mem_cons_of_mem _ h₁, List.mem_cons_of_mem _ h₂⟩
  · intro q i hq
    rcases hmem hq with hq | ⟨rfl, rfl⟩
    · obtain ⟨shape, hget, h₁, h₂, h₃⟩ := hs.entry q i hq
      exact ⟨shape, hget, h₁, h₂, h₃.grow (fun _ _ h => h) fun _ h _ => h⟩
    · exact ⟨shape, hi, hsel, hmain, hin.grow (fun _ _ h => h) fun _ h _ => h⟩
  · intro i hlt
    have hkept : ShapesKept sk (sk.assign node index) := fun _ _ h => h
    exact (hs.chain i hlt).grow hkept
  · intro other hm q i hq hw
    rcases hmem hq with hq | ⟨rfl, rfl⟩
    · exact hs.cover other hm q i hq hw
    · exact .inr (hcover other hm hw)

/-- The scope of the leading query of a `SET` can be shared with what is between the `SET` and the
query. -/
theorem Sound.share {table : List (NodeId × Nat)} {first between : NodeId} (hs : sk.Sound doc main)
    (ho : Open doc main sk node next count) (hs' : sk'.Sound doc main) (hg : Grows doc first sk sk')
    (htop : (first, index) ∈ sk'.table) (hi : sk'.shapes[index]? = some shape)
    (hnext : shape.next = next) (hnb : doc.Within node between) (hbf : doc.Within between first)
    (hne : between ≠ first) (hst : ({ sk' with table } : Skeleton).Sound doc main)
    (hnew : ∀ i, (between, i) ∉ table) :
    (({ sk' with table } : Skeleton).assign between index).Sound doc main := by
  have hfirst : ∀ {inner : NodeId}, doc.Within first inner → ¬ doc.Within inner between :=
    fun h h' => hne (hbf.antisymm (h.trans h'))
  refine hst.assign hi hnew ?_ (ho.within.trans hnb) ?_ ?_
  · obtain ⟨shape', hget, hsel, _⟩ := hs'.entry first index htop
    rw [hi] at hget
    cases hget
    exact hbf.trans hsel
  · have hin := (ho.descend hs hnb).innermost
    rw [hnext]
    refine hin.grow hg.shapes fun other hm he => ?_
    rcases hg.mem_or_within hs hs' hm with h | h
    · exact h
    · exact absurd he.1 (hfirst h)
  · intro other hm hw
    rcases hg.mem_or_within hs hs' hm with h | h
    · obtain ⟨i, hsel⟩ := hs.select_mem h
      refine (ho.descend hs hnb).placed other h ⟨hw, fun heq => ?_⟩
      exact ho.fresh _ _ hsel (heq ▸ hnb)
    · exact absurd hw (hfirst h)

theorem Open.assign (ho : Open doc main sk node next count) (hne : ¬ doc.Within node other) :
    Open doc main (sk.assign other index) node next count := by
  have hkept : ShapesKept sk (sk.assign other index) := fun _ _ h => h
  refine ⟨fun q i hq hin => ?_, ho.innermost.grow hkept fun _ h _ => h, ho.placed, ho.within,
    ho.chain.grow hkept⟩
  rcases List.mem_cons.mp hq with h | h
  · cases h
    exact hne hin
  · exact ho.fresh q i h hin

theorem Grows.trans {a b c : NodeId} {sk'' : Skeleton} (h : Grows doc a sk sk')
    (h' : Grows doc b sk' sk'') (ha : doc.Within c a) (hb : doc.Within c b) :
    Grows doc c sk sk'' := by
  refine ⟨fun i shape hi => h'.shapes i shape (h.shapes i shape hi),
    fun q i hq => h'.table q i (h.table q i hq), fun q i hq => ?_⟩
  rcases h'.added q i hq with hq | ⟨hw, hle⟩
  · rcases h.added q i hq with hq | ⟨hw, hle⟩
    · exact .inl hq
    · exact .inr ⟨ha.trans hw, hle⟩
  · exact .inr ⟨hb.trans hw, Nat.le_trans h.length_le hle⟩

theorem grows_assign (hw : doc.Within node other)
    (hle : sk.shapes.length ≤ index) (hg : Grows doc node sk sk') :
    Grows doc node sk (sk'.assign other index) := by
  refine ⟨hg.shapes, fun q i hq => List.mem_cons_of_mem _ (hg.table q i hq), fun q i hq => ?_⟩
  rcases List.mem_cons.mp hq with h | h
  · cases h
    exact .inr ⟨hw, hle⟩
  · exact hg.added q i h

end Skeleton

end SchemaRefs
