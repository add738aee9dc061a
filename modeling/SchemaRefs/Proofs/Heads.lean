import SchemaRefs.Proofs.Execution
import SchemaRefs.Session.Head

/-!
# Where first segments are found

The first segment of a reference comes from one of many places. What each place can come to is said
here once, for any contract that lets inquiries ask and fail as they like: the scope is one of that
place, and the link has what the contract vouches for (`Model.Vouches`), which comes down to
environments and to table aliases. A first segment that denotes no node is a variable or a built-in
type (`Model.Unlinked`).

* `found_boundHead`: what enclosing queries bind, and the names with `$`;
* `found_dynamicHead`: what is looked up where the context says;
* `found_headOf`: a first segment keeps to the policy of its context, unless it asks for a parameter
  or a definition.
-/

namespace SchemaRefs

/-- The scope of variables and of built-in types, which denote no node. -/
def Scope.isUnlinked : Scope → Bool
  | .magic | .builtin => true
  | _ => false

/-- The scopes of names that are not looked up where the context says. -/
def Lexical.scopes : Lexical → List Scope
  | .nothing => []
  | .dollarOnly => [.selfRef, .magic]
  | .full | .fullMixinsFirst | .enclosing => [.tableAlias, .mixin, .selfRef, .magic]

/-- The scopes of names that are looked up where the context says. Types may be built in, and a sort
order may name an element of the sources. -/
def Dynamic.scopes (context : Context) : Dynamic → List Scope
  | .global => if context = .type then [.global, .builtin] else [.global]
  | .parent => [.parent]
  | .target => [.target]
  | .query => if context = .orderBy then [.query, .source] else [.query]
  | .source => [.source]
  | .expand => [.expand]
  | .inline => [.inline]
  | .refTarget => [.refTarget]
  | .nothing => []

/-- A name was found in a scope under the policy of a context: bound beforehand, or looked up where
the context says. A context that knows names with `$` does not look them up. -/
def FoundBy (context : Context) (name : String) (scope : Scope) : Prop :=
  scope ∈ context.policy.lexical.scopes ∨
    (scope ∈ context.policy.dynamic.scopes context ∧
      (context.policy.lexical ≠ .nothing → isDollarName name = false))

theorem Dynamic.global_mem_scopes (context : Context) :
    Scope.global ∈ Dynamic.global.scopes context := by
  cases context <;> decide

theorem Dynamic.query_mem_scopes (context : Context) :
    Scope.query ∈ Dynamic.query.scopes context := by
  cases context <;> decide

/-! ## Heads -/

namespace Head

/-- The scope in which the first segment was found. -/
def scope : Head → Scope
  | .bound _ scope _ => scope
  | .unlinked scope => scope

/-- What bound the first segment. -/
def env : Head → Option Binding
  | .bound _ _ env => env
  | .unlinked _ => none

/-- A head that denotes a node gives a link with `P`, one that denotes none a scope with `U`. -/
def Gives (P : Link → Option Binding → Prop) (U : Scope → Prop) : Head → Prop
  | .bound link scope binding => P link binding ∧ scope.isUnlinked = false
  | .unlinked scope => U scope

/-- A head with a scope of the list. -/
structure FoundIn (P : Link → Option Binding → Prop) (U : Scope → Prop) (scopes : List Scope)
    (head : Head) : Prop where
  gives : head.Gives P U
  scope : head.scope ∈ scopes

/-- If a head was found, it has a scope of the list. -/
def FindsIn (P : Link → Option Binding → Prop) (U : Scope → Prop) (scopes : List Scope)
    (head : Option Head) : Prop :=
  ∀ found, head = some found → found.FoundIn P U scopes

variable {P : Link → Option Binding → Prop} {U : Scope → Prop} {scopes scopes' : List Scope}

theorem findsIn_none : FindsIn P U scopes none :=
  fun _ h => by cases h

theorem FoundIn.some {head : Head} (h : head.FoundIn P U scopes) : FindsIn P U scopes (some head) :=
  fun _ heq => Option.some.inj heq ▸ h

theorem FindsIn.mono {head : Option Head} (h : FindsIn P U scopes head) (hs : scopes ⊆ scopes') :
    FindsIn P U scopes' head :=
  fun found hf => ⟨(h found hf).gives, hs (h found hf).scope⟩

end Head

namespace Model

open Inquiry Head

variable {m : Model}

variable (m) in
/-- The first name of a reference denotes no node, and the scope says why: it is a variable, in a
context that knows names with `$`, or it is a built-in type. -/
inductive Unlinked (site : Site) (name : String) (segments : Nat) : Scope → Prop where
  | magic : m.doc.flag site.holder "param" = false → m.doc.flag site.holder "global" = false →
      site.context.policy.lexical ≠ .nothing → isDollarName name = true → name ≠ "$self" →
      name ≠ "$projection" → Unlinked site name segments .magic
  | builtin : m.doc.flag site.holder "param" = false → segments = 1 → site.context = .type →
      isBuiltinType name = true → m.doc.definition? name = none →
      Unlinked site name segments .builtin

theorem Unlinked.isUnlinked {site : Site} {name : String} {segments : Nat} {scope : Scope}
    (h : m.Unlinked site name segments scope) : scope.isUnlinked = true := by
  cases h <;> rfl

variable (m) in
/-- Under the contract, the links of nodes without environment, of nodes with their environment and
of the table aliases in a topology have the property. -/
structure Vouches (topology : Topology) (c : Contract) (P : Link → Option Binding → Prop) :
    Prop where
  /-- Inquiries may ask and fail as they like. -/
  free : ∀ {α : Type} (x : Inquiry α), x.Meets c fun _ => True
  unset : ∀ art binding, P ⟨art, none⟩ binding
  env : ∀ node, (m.envOf node).Meets c fun env => ∀ binding, P ⟨node, env⟩ binding
  tableAlias : ∀ {index scope name binding}, topology.scope? index = some scope →
    Table.get? scope.aliases name = some binding →
    (m.aliasLink topology binding).Meets c fun link => P link (some (.tableAlias name scope.number))

/-- The contract of inquiries about which nothing is known but that they answer. -/
abbrev anything : Contract := .answering fun _ => True

theorem vouches_anything (topology : Topology) : m.Vouches topology anything fun _ _ => True where
  free := meets_answering
  unset := fun _ _ => trivial
  env := fun _ => (meets_answering _).weaken fun _ _ _ => trivial
  tableAlias := fun _ _ => meets_answering _

section

variable {topology : Topology} {c : Contract} {P : Link → Option Binding → Prop}
  (hP : m.Vouches topology c P) (U : Scope → Prop) (site : Site) (name : String)
include hP

theorem Vouches.fails {α : Type} {post : α → Prop} (e : ResolveError) :
    (Inquiry.failure e : Inquiry α).Meets c post :=
  hP.free (.failure e : Inquiry α)

theorem Vouches.plainHead {U : Scope → Prop} (art : NodeId) {scope : Scope} {scopes : List Scope}
    (hlinked : scope.isUnlinked = false) (hs : scope ∈ scopes) :
    (Model.plainHead art scope).FoundIn P U scopes :=
  ⟨⟨hP.unset art _, hlinked⟩, hs⟩

/-! ## Names that are bound beforehand -/

theorem found_bindingIn {index : Nat} {scope : QueryScope} (hs : topology.scope? index = some scope)
    (mixinsFirst visible : Bool) :
    (m.bindingIn topology name mixinsFirst visible scope).Meets c
      (FindsIn P U [.tableAlias, .mixin]) := by
  have hmixin : FindsIn P U [.tableAlias, .mixin]
      ((Table.get? scope.mixins name).map (mixinHead name scope)) := by
    intro head hh
    obtain ⟨mixin, _, rfl⟩ := Option.map_eq_some_iff.mp hh
    exact ⟨⟨hP.unset mixin _, rfl⟩, List.mem_cons_of_mem _ List.mem_cons_self⟩
  unfold bindingIn
  dsimp only
  split
  · next hh => exact hh ▸ hmixin
  · next binding hvisible _ =>
    have halias : Table.get? scope.aliases name = some binding := by
      split at hvisible
      · exact hvisible
      · cases hvisible
    refine Meets.bind (Meets.bind (hP.tableAlias hs halias) fun link hl => ?_) fun head hh => hh
    exact FoundIn.some ⟨⟨hl, rfl⟩, List.mem_cons_self⟩
  · exact hmixin

theorem found_lexicalFrom (mixinsFirst visible : Bool) (steps : Nat) (index : Option Nat) :
    (m.lexicalFrom topology name mixinsFirst visible steps index).Meets c
      (FindsIn P U [.tableAlias, .mixin]) := by
  induction steps generalizing index with
  | zero =>
    cases index with
    | none => exact findsIn_none
    | some index => exact hP.fails _
  | succ steps ih =>
    cases index with
    | none => exact findsIn_none
    | some index =>
      unfold lexicalFrom
      split
      · exact hP.fails _
      · next scope hs =>
        refine Meets.bind (found_bindingIn hP U name hs mixinsFirst visible) fun head hh => ?_
        split
        · exact hh
        · exact ih _

/-- A name that starts with `$` has a meaning. -/
theorem found_dollarHead
    (hU : isDollarName name = true → name ≠ "$self" → name ≠ "$projection" → U .magic) :
    (m.dollarHead site topology name).Meets c fun head =>
      FindsIn P U [.selfRef, .magic] head ∧ (head = none → isDollarName name = false) := by
  unfold dollarHead
  split
  · next hd => exact ⟨findsIn_none, fun _ => by simpa using hd⟩
  · next hd =>
    split
    · refine Meets.bind (hP.env site.main) fun env he => ?_
      exact ⟨FoundIn.some ⟨⟨he _, rfl⟩, List.mem_cons_self⟩, fun h => by cases h⟩
    · next hself =>
      simp only [Bool.or_eq_true, beq_iff_eq, not_or] at hself
      have hmagic : Head.FoundIn P U [.selfRef, .magic] (.unlinked .magic) :=
        ⟨hU (by simpa using hd) hself.1 hself.2, List.mem_cons_of_mem _ List.mem_cons_self⟩
      exact ⟨hmagic.some, fun h => by cases h⟩

/-- What is bound beforehand has a scope of the lexical mode. A mode that knows names with `$`
leaves none of them. -/
theorem found_boundHead (lexical : Lexical) (segments : Nat)
    (hU : lexical ≠ .nothing → isDollarName name = true → name ≠ "$self" →
      name ≠ "$projection" → U .magic) :
    (m.boundHead site topology lexical name segments).Meets c fun head =>
      FindsIn P U lexical.scopes head ∧
      (head = none → lexical ≠ .nothing → isDollarName name = false) := by
  have hdollar : lexical ≠ .nothing → (m.dollarHead site topology name).Meets c fun head =>
      FindsIn P U [.tableAlias, .mixin, .selfRef, .magic] head ∧
        (head = none → lexical ≠ .nothing → isDollarName name = false) :=
    fun hl => (found_dollarHead hP U site name (hU hl)).weaken fun head hh =>
      ⟨hh.1.mono (List.subset_append_right [Scope.tableAlias, .mixin] _), fun hn _ => hh.2 hn⟩
  cases lexical with
  | nothing => exact ⟨findsIn_none, fun _ h => absurd rfl h⟩
  | dollarOnly =>
    exact (found_dollarHead hP U site name (hU (by decide))).weaken fun head hh =>
      ⟨hh.1, fun hn _ => hh.2 hn⟩
  | full | fullMixinsFirst | enclosing =>
    refine Meets.bind (found_lexicalFrom hP U name _ _ _ _) fun head hh => ?_
    split
    · exact ⟨hh.mono (List.subset_append_left _ [Scope.selfRef, .magic]), fun h => by cases h⟩
    · exact hdollar (by decide)

/-! ## Names that are looked up -/

theorem found_globalHead (segments : Nat)
    (hU : segments = 1 → site.context = .type → isBuiltinType name = true →
      m.doc.definition? name = none → U .builtin) :
    (m.globalHead site name segments).Meets c
      (FoundIn P U (Dynamic.global.scopes site.context)) := by
  unfold globalHead
  split
  · exact hP.plainHead _ rfl (Dynamic.global_mem_scopes site.context)
  · next hd =>
    split
    · next hb =>
      refine ⟨hU hb.1 hb.2.1 hb.2.2 hd, ?_⟩
      rw [hb.2.1]
      exact List.mem_cons_of_mem _ List.mem_cons_self
    · exact hP.fails _

theorem found_upHead (aspect : NodeId) : (m.upHead aspect).Meets c (FindsIn P U [.parent]) := by
  unfold upHead
  split
  · exact findsIn_none
  · split
    · exact findsIn_none
    · split
      · exact findsIn_none
      · exact Meets.bind (hP.env _) fun env he => FoundIn.some ⟨⟨he _, rfl⟩, List.mem_cons_self⟩

theorem found_parentHead : (m.parentHead site name).Meets c (FoundIn P U [.parent]) := by
  unfold parentHead
  split
  · exact hP.fails _
  · next parent _ =>
    refine Meets.bind (hP.free _) fun env _ => ?_
    split
    · exact hP.plainHead _ rfl List.mem_cons_self
    · dsimp only
      split
      · refine Meets.bind (found_upHead hP U parent) fun up hu => ?_
        split
        · exact hu _ rfl
        · exact hP.fails _
      · exact hP.fails _

theorem found_targetHead : (m.targetHead site name).Meets c (FoundIn P U [.target]) := by
  unfold targetHead
  split
  · exact hP.fails _
  · refine Meets.bind (hP.free _) fun env _ => ?_
    split
    · exact hP.fails _
    · split
      · exact hP.plainHead _ rfl List.mem_cons_self
      · exact hP.fails _

theorem found_sourceHead : (m.sourceHead site topology name).Meets c (FoundIn P U [.source]) := by
  unfold sourceHead
  split
  · exact hP.fails _
  · refine Meets.bind (hP.free _) fun found _ => ?_
    split
    · exact ⟨⟨hP.unset _ _, rfl⟩, List.mem_cons_self⟩
    · exact hP.fails _

theorem found_queryHead :
    (m.queryHead site topology name).Meets c (FoundIn P U (Dynamic.query.scopes site.context)) := by
  unfold queryHead
  split
  · exact hP.plainHead _ rfl (Dynamic.query_mem_scopes site.context)
  · split
    · next ho =>
      rw [ho]
      exact (found_sourceHead hP U site name).weaken fun head hh =>
        ⟨hh.gives, List.mem_cons_of_mem _ hh.scope⟩
    · exact hP.fails _

theorem found_baseHead {scope : Scope} (h : scope.isUnlinked = false) :
    (m.baseHead site name scope).Meets c (FoundIn P U [scope]) := by
  refine Meets.bind (hP.free _) fun env _ => ?_
  split
  · exact hP.fails _
  · split
    · exact hP.plainHead _ h List.mem_cons_self
    · exact hP.fails _

/-- What is looked up where the context says has a scope of that place. -/
theorem found_dynamicHead (segments : Nat) (dynamic : Dynamic)
    (hU : segments = 1 → site.context = .type → isBuiltinType name = true →
      m.doc.definition? name = none → U .builtin) :
    (m.dynamicHead site topology name segments dynamic).Meets c
      (FoundIn P U (dynamic.scopes site.context)) := by
  cases dynamic with
  | global => exact found_globalHead hP U site name segments hU
  | parent => exact found_parentHead hP U site name
  | target => exact found_targetHead hP U site name
  | query => exact found_queryHead hP U site name
  | source => exact found_sourceHead hP U site name
  | expand => exact found_baseHead hP U site name rfl
  | inline => exact found_baseHead hP U site name rfl
  | refTarget => exact found_baseHead hP U site name rfl
  | nothing => exact hP.fails _

/-! ## The policy of the context -/

theorem found_policyHead (segments : Nat) (hparam : m.doc.flag site.holder "param" = false)
    (hglobal : m.doc.flag site.holder "global" = false) :
    (m.policyHead site topology name segments).Meets c fun head =>
      head.Gives P (m.Unlinked site name segments) ∧ FoundBy site.context name head.scope := by
  refine Meets.bind (found_boundHead hP (m.Unlinked site name segments) site name _ segments
    (.magic hparam hglobal)) fun bound hbound => ?_
  split
  · have hfound := hbound.1 _ rfl
    exact ⟨hfound.gives, .inl hfound.scope⟩
  · exact (found_dynamicHead hP _ site name segments _ (.builtin hparam)).weaken fun head hh =>
      ⟨hh.gives, .inr ⟨hh.scope, hbound.2 rfl⟩⟩

theorem found_headOf (segments : Nat) :
    (m.headOf site topology name segments).Meets c fun head =>
      head.Gives P (m.Unlinked site name segments) ∧
      (m.doc.flag site.holder "param" = false → m.doc.flag site.holder "global" = false →
        FoundBy site.context name head.scope) := by
  unfold headOf
  split
  · next hp =>
    unfold paramHead
    split
    · exact ⟨⟨hP.unset _ _, rfl⟩, fun hno => by rw [hp] at hno; cases hno⟩
    · exact hP.fails _
  · next hp =>
    have hparam : m.doc.flag site.holder "param" = false := Bool.eq_false_iff.mpr hp
    split
    · next hg =>
      exact (found_globalHead hP _ site name segments (.builtin hparam)).weaken fun head hh =>
        ⟨hh.gives, fun _ hno => by rw [hg] at hno; cases hno⟩
    · next hg =>
      exact (found_policyHead hP site name segments hparam (Bool.eq_false_iff.mpr hg)).weaken
        fun head hh => ⟨hh.1, fun _ _ => hh.2⟩

end

end Model

end SchemaRefs
