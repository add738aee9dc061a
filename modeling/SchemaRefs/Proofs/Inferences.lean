import SchemaRefs.Proofs.Completeness
import SchemaRefs.Proofs.Policies

/-!
# What inquiries come to

What an inquiry infers is told by its parts (`infers_bind_iff`), or by a contract under which every
question is answered by what it means (`meets_known`). Sessions that inspect the paths of nodes
resolve exactly those that have a meaning (`inspect_eq_ok_iff`).

The resolution of a reference starts with what its first segment denotes, wherever that was found
(`meets_resolutionFrom`).
-/

namespace SchemaRefs

/-- The outcome is a failure of a kind. -/
def FailsWith {α : Type} (kind : ModelErrorKind) (outcome : Except ResolveError α) : Prop :=
  ∃ e, outcome = .error (.model e) ∧ e.kind = kind

section

variable {α : Type} {kind : ModelErrorKind}

theorem failsWith_error {e : ModelError} :
    FailsWith kind (.error (.model e) : Except ResolveError α) ↔ e.kind = kind := by
  constructor
  · rintro ⟨e', heq, hkind⟩
    cases heq
    exact hkind
  · exact fun hkind => ⟨e, rfl, hkind⟩

theorem not_failsWith_ok {a : α} : ¬ FailsWith kind (.ok a) := by
  rintro ⟨_, heq, _⟩
  cases heq

instance (outcome : Except ResolveError α) : Decidable (FailsWith kind outcome) :=
  match outcome with
  | .error (.model _) => decidable_of_iff _ failsWith_error.symm
  | .error (.assertion _) => isFalse fun h => by obtain ⟨_, heq, _⟩ := h; cases heq
  | .ok _ => isFalse not_failsWith_ok

end

theorem Inquiry.bind_assoc {α β γ : Type} (x : Inquiry α) (f : α → Inquiry β) (g : β → Inquiry γ) :
    (x >>= f) >>= g = x >>= fun a => f a >>= g := by
  induction x with
  | answer value => rfl
  | failure error => rfl
  | inspect path next ih => exact congrArg (Inquiry.inspect path) (funext ih)
  | effectiveType node next ih => exact congrArg (Inquiry.effectiveType node) (funext ih)

theorem Inquiry.infer_bind {doc : Document} {k : Knowledge} {α β : Type} (x : Inquiry α)
    (f : α → Inquiry β) :
    (x >>= f).infer doc k = (x.infer doc k).bind fun a => (f a).infer doc k := by
  induction x with
  | answer value => rfl
  | failure error => rfl
  | inspect path next ih =>
    rw [inspect_bind, infer, infer, Option.bind_assoc]
    exact congrArg _ (funext ih)
  | effectiveType node next ih =>
    rw [effectiveType_bind, infer, infer]
    split
    · rw [Option.bind_assoc]
      exact congrArg _ (funext ih)
    · rfl

namespace Model

open Inquiry CacheM

variable {m : Model} {s t : Cache} {α β : Type} {path : Path} {r : Resolution}

/-! ## Inferences -/

theorem infers_bind_iff {x : Inquiry α} {f : α → Inquiry β} {b : β} :
    m.Infers (x >>= f) b ↔ ∃ a, m.Infers x a ∧ m.Infers (f a) b := by
  constructor
  · rintro ⟨n, hn⟩
    rw [infer_bind] at hn
    obtain ⟨a, ha, hb⟩ := Option.bind_eq_some_iff.mp hn
    exact ⟨a, ⟨n, ha⟩, n, hb⟩
  · rintro ⟨a, ⟨n, hn⟩, k, hk⟩
    refine ⟨max n k, ?_⟩
    rw [infer_bind, infer_mono (stage_mono (Nat.le_max_left n k)) hn, Option.bind_some]
    exact infer_mono (stage_mono (Nat.le_max_right n k)) hk

theorem infers_answer {a b : α} : m.Infers (.answer a) b ↔ a = b :=
  ⟨fun h => by obtain ⟨_, hn⟩ := h; exact Option.some.inj hn, fun h => ⟨0, congrArg some h⟩⟩

theorem not_infers_fail {e : ModelError} {a : α} : ¬ m.Infers (Inquiry.fail e) a := by
  rintro ⟨_, hn⟩
  cases hn

theorem infers_resolutionAt : m.Infers (resolutionAt path) r ↔ m.Denotes path r := by
  have hinfer : ∀ n, (resolutionAt path).infer m.doc (m.stage n) = (m.stage n).resolution path :=
    fun n => Option.bind_fun_some _
  simp only [Infers, Denotes, hinfer]

/-- What a path denotes is what the rules infer for its site. -/
theorem denotes_iff_infers {topology : Topology} {site : Site}
    (hsite : m.siteAt? path = .ok (topology, site)) :
    m.Denotes path r ↔ m.Infers (m.resolveSite site topology) r := by
  have hstage : ∀ n, (m.stage (n + 1)).resolution path =
      (m.resolveSite site topology).infer m.doc (m.stage n) := by
    intro n
    rw [stage_resolution]
    simp only [resolutionBy, hsite]
  constructor
  · rintro ⟨n, hn⟩
    cases n with
    | zero => cases hn
    | succ n => exact ⟨n, (hstage n).symm.trans hn⟩
  · rintro ⟨n, hn⟩
    exact ⟨n + 1, (hstage n).trans hn⟩

variable (m) in
/-- Questions are answered by what they mean. -/
def known : Contract where
  path := fun _ => True
  node := fun _ => True
  resolution := m.Denotes
  type := fun node type => (m.doc.owner? node).isSome = true ∧ m.ChainEnds node type
  error := fun _ => True

theorem meets_known (x : Inquiry α) : x.Meets m.known (m.Infers x) := by
  induction x with
  | answer value => exact ⟨0, rfl⟩
  | failure error => trivial
  | inspect path next ih =>
    exact ⟨trivial, fun r hr => (ih r).weaken fun a ha =>
      infers_bind_iff.mpr ⟨r, infers_resolutionAt.mpr hr, ha⟩⟩
  | effectiveType node next ih =>
    refine ⟨trivial, fun type htype => (ih type).weaken fun a ha => ?_⟩
    obtain ⟨ho, n, hn⟩ := htype
    obtain ⟨k, hk⟩ := ha
    refine ⟨max n k, ?_⟩
    rw [infer, if_pos ho, (stage_mono (Nat.le_max_left n k)).chainEnd node type hn,
      Option.bind_some]
    exact infer_mono (stage_mono (Nat.le_max_right n k)) hk

theorem Infers.meets {x : Inquiry α} {a : α} {post : α → Prop} (h : m.Infers x a)
    (hx : x.Meets m.known post) :
    post a := by
  obtain ⟨n, hn⟩ := h
  induction x with
  | answer value =>
    cases hn
    exact hx
  | failure error => cases hn
  | inspect path next ih =>
    obtain ⟨r, hr, hnext⟩ := Option.bind_eq_some_iff.mp hn
    exact ih r (hx.2 r ⟨n, hr⟩) hnext
  | effectiveType node next ih =>
    rw [infer] at hn
    split at hn
    · next ho =>
      obtain ⟨type, ht, hnext⟩ := Option.bind_eq_some_iff.mp hn
      exact ih type (hx.2 type ⟨ho, n, ht⟩) hnext
    · cases hn

theorem meets_known_of_anything {x : Inquiry α} {post : α → Prop} (hx : x.Meets anything post) :
    x.Meets m.known post :=
  hx.mono (fun _ h => h) (fun _ h => h) (fun _ _ _ _ => trivial) (fun _ _ _ _ => trivial)
    (fun _ h => h) fun _ h => h

/-! ## Inferences and sessions -/

theorem denotes_of_inspect (hs : m.meanings.Settled s) (hp : m.IsCanonical path)
    (hr : (exec (m.inspect path) s).1 = .ok r) : m.Denotes path r := by
  have hend := ((Theory.answers_ask lawful_meanings).inspect path hp s ⟨hs.agrees, room_le s⟩).2.2
  change Ends _ _ (exec (m.inspect path) s).1 at hend
  rw [hr] at hend
  exact denotes_of_resolves hp hend

/-- Sessions resolve the paths that have a meaning, and no others. -/
theorem inspect_eq_ok_iff (hshort : m.ShortChains) (hs : m.meanings.Settled s)
    (hp : m.IsCanonical path) :
    (exec (m.inspect path) s).1 = .ok r ↔ m.Denotes path r := by
  refine ⟨denotes_of_inspect hs hp, ?_⟩
  rintro ⟨n, hn⟩
  obtain ⟨t, hex⟩ := (yields_lookups hshort n m.nesting).1.inspect path r s hp
    ⟨hs.agrees, room_le s⟩ (clear_of_settled n hs) hn
  exact congrArg Prod.fst hex

/-- How a session begins to inspect a path: the topology is prepared, and nothing that is known is
being looked up, as long as the path has no known meaning. -/
theorem exec_inspect_begins (hs : m.meanings.Settled s) (hp : m.IsCanonical path)
    {topology : Topology} {site : Site} (hsite : m.siteAt? path = .ok (topology, site)) :
    ∃ t, exec (m.prepare site.main) s = (.ok topology, t) ∧
      exec (m.inspect path) s =
        exec (m.inspectSite (m.lookups (2 * m.doc.size + 1)) path topology site) t ∧
      m.meanings.Agrees t ∧ site.holder ∉ t.resolving ∧
      m.meanings.Ready (2 * m.doc.size + 1) (begun t site.holder) ∧
      ∀ n, (m.stage n).resolution path = none → m.Clear n (begun t site.holder) := by
  obtain ⟨t, hprepare, hex, horderly, hsteady, _⟩ :=
    exec_inspectWith_ok (m.lookups (2 * m.doc.size + 1)) hs.agrees.orderly hsite
  have hagree : m.meanings.Agrees t := hs.agrees.steady horderly hsteady
  have hfree : site.holder ∉ t.resolving := by
    rw [hsteady.resolving, hs.idle]
    exact List.not_mem_nil
  exact ⟨t, hprepare, hex, hagree, hfree, Theory.Ready.begun ⟨hagree, room_le t⟩
    hsite hfree, fun n hn =>
    ((clear_of_settled n hs).extends (Extends.steady hsteady)).begun hp hsite hn⟩

theorem failsWith_run_bind {kind : ModelErrorKind} {x : Inquiry α} {k : Lookups}
    (h : FailsWith kind (exec (x.run k) s).1) (f : α → Inquiry β) :
    FailsWith kind (exec ((x >>= f).run k) s).1 := by
  obtain ⟨e, he, hkind⟩ := h
  rw [exec_run_bind_error (Prod.ext he rfl)]
  exact failsWith_error.mpr hkind

/-- What holds of every answer of an inquiry holds of the one that is found, whoever answers its
questions. -/
theorem property_of_exec {x : Inquiry α} {post : α → Prop} (hx : x.Meets anything post)
    {k : Lookups} {a : α} (hex : exec (x.run k) s = (.ok a, t)) : post a := by
  induction x generalizing s with
  | answer value =>
    cases hex
    exact hx
  | failure error => cases hex
  | inspect path next ih =>
    change exec (k.inspect path >>= fun r => (next r).run k) s = _ at hex
    rcases hq : exec (k.inspect path) s with ⟨e | r, u⟩
    · rw [exec_bind_error hq] at hex
      cases hex
    · rw [exec_bind_ok hq] at hex
      exact ih r (hx.2 r trivial) hex
  | effectiveType node next ih =>
    change exec (k.effectiveType node >>= fun type => (next type).run k) s = _ at hex
    rcases hq : exec (k.effectiveType node) s with ⟨e | type, u⟩
    · rw [exec_bind_error hq] at hex
      cases hex
    · rw [exec_bind_ok hq] at hex
      exact ih type (hx.2 type trivial) hex

section

variable {k : Lookups} {path : Path} {topology : Topology} {site : Site}
  (hnone : s.get? .resolution site.holder = none) (hfree : site.holder ∉ s.resolving)
include hnone hfree

/-- A site that was not resolved before is resolved by the rules. -/
theorem exec_resolveSite_of_ok (h : (exec (m.inspectSite k path topology site) s).1 = .ok r) :
    ∃ t, exec ((m.resolveSite site topology).run k) (begun s site.holder) = (.ok r, t) := by
  rw [exec_inspectSite, hnone] at h
  dsimp only at h
  rw [if_neg hfree] at h
  rcases hex : exec ((m.resolveSite site topology).run k) (begun s site.holder) with ⟨e | r', t⟩
  · rw [hex] at h
    cases h
  · rw [hex] at h
    dsimp only at h
    split at h
    · cases h
      exact ⟨t, rfl⟩
    · split at h
      · cases h
        exact ⟨t, rfl⟩
      · cases h

theorem exec_inspectSite_error {e : ResolveError}
    (h : exec ((m.resolveSite site topology).run k) (begun s site.holder) = (.error e, t)) :
    (exec (m.inspectSite k path topology site) s).1 = .error (m.annotate site e) := by
  rw [exec_inspectSite, hnone]
  dsimp only
  rw [if_neg hfree, h]

end

/-! ## From the first segment on -/

variable (m) in
/-- The first segment under the policy of the context, after the search in the enclosing queries. -/
def headFrom (site : Site) (topology : Topology) (name : String) (segments : Nat) :
    Option Head → Inquiry Head
  | some head => return head
  | none => m.dynamicHead site topology name segments site.context.policy.dynamic

theorem policyHead_eq (site : Site) (topology : Topology) (name : String) (segments : Nat) :
    m.policyHead site topology name segments =
      m.boundHead site topology site.context.policy.lexical name segments >>=
        m.headFrom site topology name segments := by
  refine congrArg (m.boundHead site topology site.context.policy.lexical name segments >>= ·)
    (funext fun found => ?_)
  cases found <;> rfl

/-- Closing the links changes none of the nodes that they denote. -/
theorem arts_closeLinks (site : Site) (lastName : String) (links : List Link) :
    (m.closeLinks site lastName links).Meets anything fun closed =>
      closed.map Link.art = links.map Link.art := by
  unfold closeLinks
  split
  · rfl
  · next last hlast =>
    split
    · rfl
    · refine Meets.bind (meets_answering _) fun env _ => ?_
      split
      · trivial
      · obtain ⟨front, rfl⟩ := List.getLast?_eq_some_iff.mp hlast
        change ((front ++ [last]).dropLast ++ [{ last with env }]).map Link.art = _
        simp

/-- The first link denotes what the first segment does. -/
theorem meets_resolutionFrom (site : Site) (name : String) (rest : List String) (link : Link)
    (scope : Scope) (env : Option Binding) :
    (m.resolutionFrom site name rest (.bound link scope env)).Meets anything fun r =>
      r.scope = scope ∧ r.env = env ∧ r.context = site.context ∧
        r.links.head?.map Link.art = some link.art := by
  have hfollow : (m.followLinks name link rest).Meets anything fun links =>
      links.head?.map Link.art = some link.art := by
    cases rest with
    | nil => rfl
    | cons next rest =>
      have hrest : ∀ env, (m.linksIn link next rest env).Meets anything fun links =>
          links.head?.map Link.art = some link.art := by
        intro env
        unfold linksIn
        split
        · trivial
        · exact Meets.bind (meets_answering _) fun links _ => rfl
      unfold followLinks
      dsimp only
      split
      · exact hrest _
      · refine Meets.bind (meets_answering _) fun env _ => ?_
        split
        · exact hrest _
        · trivial
  refine Meets.bind hfollow fun links hfirst =>
    Meets.bind (arts_closeLinks site _ links) fun closed harts => ?_
  refine ⟨rfl, rfl, rfl, ?_⟩
  rw [← List.head?_map] at hfirst ⊢
  rw [harts]
  exact hfirst

theorem meets_resolutionFrom_single (site : Site) (name : String) (first : Link) (scope : Scope)
    (env : Option Binding) :
    (m.resolutionFrom site name [] (.bound first scope env)).Meets anything fun r =>
      r.context = site.context ∧ r.art = some first.art := by
  have hsingle : (m.followLinks name first []).Meets anything fun links => links = [first] := rfl
  refine Meets.bind hsingle fun links hlinks => ?_
  subst hlinks
  refine Meets.bind (arts_closeLinks site name [first]) fun closed harts => ⟨rfl, ?_⟩
  have hlast : (closed.map Link.art).getLast? = some first.art := by rw [harts]; rfl
  rwa [List.getLast?_map] at hlast

end Model

end SchemaRefs
