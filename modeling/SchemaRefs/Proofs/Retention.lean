import SchemaRefs.Proofs.Requests

/-!
# What a session retains

A request may add facts to the cache of a session, but the marks of chains and the holders that are
being resolved are gone when it has been answered, and no fact is lost or changed, except when its
definition is dropped (`answer_leaves_no_mark_and_forgets_nothing`). So a resolution that was found
once is found again as long as its definition is not dropped, and finding it again does nothing
(`inspection_repeats_without_effect`).
-/

namespace SchemaRefs

open CacheM

/-- The request does not drop the definition that a node lies in. -/
def Request.Spares (doc : Document) (node : NodeId) : Request → Prop
  | .drop definition => doc.owner? node ≠ some definition
  | _ => True

namespace Model

variable {m : Model} {T : Theory m} {P : Path → Prop} {s t : Cache}

/-! ## One request -/

theorem remembers_answer (hT : T.Governs P) {request : Request} (hasks : request.Asks P)
    (hdrop : ∀ definition, request ≠ .drop definition) (hs : T.Settled s) :
    Remembers s (exec (m.answer request) s).2 := by
  cases hplain : request.isPlain with
  | true => exact (keeps_plain hT request hasks hplain s hs).2.1.remembers
  | false =>
    cases request with
    | origin node => exact (keeps_originWithin hT (Nat.lt_succ_self node) s hs).2.1.remembers
    | drop definition => exact absurd rfl (hdrop definition)
    | _ => cases hplain

/-- A fact stays when the definition around its node is not dropped. -/
theorem get?_answer_of_spares (hT : T.Governs P) {request : Request} (hasks : request.Asks P)
    (hs : T.Settled s) {key : FactKey} {node : NodeId} {value : key.Value}
    (hspares : request.Spares m.doc node) (hv : s.get? key node = some value) :
    (exec (m.answer request) s).2.get? key node = some value := by
  by_cases hdrop : ∃ definition, request = .drop definition
  · obtain ⟨definition, rfl⟩ := hdrop
    have hget : (s.dropAll definition).1.get? key node = s.get? key node :=
      (hs.agrees.orderly.owned.get?_drop definition node key).trans (if_neg hspares)
    exact hget.trans hv
  · exact remembers_answer hT hasks (fun definition heq => hdrop ⟨definition, heq⟩) hs key
      node value hv

/-- When a request of any session has been answered, successfully or not, no chain is marked, no
reference is being resolved, and every fact that was known before is known with the same value,
unless the request drops the definition around its node. -/
theorem answer_leaves_no_mark_and_forgets_nothing {m : Model} {s t : Cache} (h : m.Reachable s)
    (request : Request) {outcome : Except ResolveError request.Result}
    (hex : exec (m.answer request) s = (outcome, t)) :
    (∀ node, t.get? .effectiveType node ≠ some .inProgress) ∧ t.resolving = [] ∧
      ∀ (key : FactKey) (node : NodeId) (value : key.Value), s.get? key node = some value →
        request.Spares m.doc node → t.get? key node = some value := by
  have hs := settled_of_reachable h
  obtain ⟨ht, _⟩ := keeps_answer governs_all request (asks_true request) s hs
  have hkept := fun (key : FactKey) (node : NodeId) (value : key.Value)
      (hv : s.get? key node = some value) (hspares : request.Spares m.doc node) =>
    get?_answer_of_spares governs_all (asks_true request) hs hspares hv
  rw [hex] at ht hkept
  exact ⟨ht.unmarked, ht.idle, hkept⟩

/-! ### Two types that are each other's type -/

/-- Two types that need each other, and one that does not. -/
def cycleModel : Model :=
  ⟨.ofDefinitions [
    ("A", .object [("type", .string "B")]),
    ("B", .object [("type", .string "A")]),
    ("S", .object [("type", .string "cds.String")])], {}⟩

/-- The effective type of `S` is known. -/
def cycleSession : Cache :=
  (exec (cycleModel.answer (.effectiveType 6)) Cache.empty).2

/-- The walk around the cycle fails, takes its marks back and leaves what was known. -/
theorem cycleSession_keeps_type :
    cycleModel.Reachable cycleSession ∧
    cycleSession.get? .effectiveType 6 = some (.done 6) ∧
    (exec (cycleModel.answer (.effectiveType 2)) cycleSession).1.toOption.isNone = true ∧
    ∃ outcome t, exec (cycleModel.answer (.effectiveType 2)) cycleSession = (outcome, t) ∧
      t.get? .effectiveType 2 ≠ some .inProgress ∧ t.get? .effectiveType 4 ≠ some .inProgress ∧
      t.resolving = [] ∧ t.get? .effectiveType 6 = some (.done 6) := by
  have hreach : cycleModel.Reachable cycleSession := .after _ trivial .new
  have hknown : cycleSession.get? .effectiveType 6 = some (.done 6) := by decide +kernel
  obtain ⟨hmarks, hidle, hkept⟩ :=
    answer_leaves_no_mark_and_forgets_nothing hreach (.effectiveType 2) rfl
  exact ⟨hreach, hknown, by decide +kernel, _, _, rfl, hmarks 2, hmarks 4, hidle,
    hkept .effectiveType 6 _ hknown trivial⟩

/-! ## Later requests -/

variable (m) in
/-- The caches of a session after further requests, none of which drops the definition. -/
inductive Later (definition : NodeId) (s : Cache) : Cache → Prop where
  | now : Later definition s s
  | after {t : Cache} (request : Request) : request ≠ .drop definition → Later definition s t →
      Later definition s (exec (m.answer request) t).2

/-- Later on, the session is settled, and knows all that it knew about the definition. -/
theorem Later.retains {definition : NodeId} (h : m.Later definition s t)
    (hs : (m.rules fun _ => True).Settled s) :
    (m.rules fun _ => True).Settled t ∧
      ∀ (key : FactKey) (node : NodeId) (value : key.Value), m.doc.owner? node = some definition →
        s.get? key node = some value → t.get? key node = some value := by
  induction h with
  | now => exact ⟨hs, fun _ _ _ _ hv => hv⟩
  | @after t request hne _ ih =>
    obtain ⟨ht, hkept⟩ := ih
    have hspares : ∀ node, m.doc.owner? node = some definition → request.Spares m.doc node := by
      intro node ho
      cases request with
      | drop other =>
        intro hother
        rw [ho] at hother
        exact hne (congrArg Request.drop (Option.some.inj hother).symm)
      | _ => trivial
    exact ⟨(keeps_answer governs_all request (asks_true request) t ht).1,
      fun key node value ho hv =>
      get?_answer_of_spares governs_all (asks_true request) ht (hspares node ho)
        (hkept key node value ho hv)⟩

variable {k : Lookups} {path : Path} {topology : Topology} {site : Site} {r : Resolution}

/-- The site of a path has its topology and its resolution in the cache. -/
structure Inspected (m : Model) (s : Cache) (path : Path) (topology : Topology) (site : Site)
    (r : Resolution) : Prop where
  found : m.siteAt? path = .ok (topology, site)
  prepared : s.get? .topology site.main = some topology
  resolved : s.get? .resolution site.holder = some r

/-- A site that was inspected with success has its resolution in the cache. -/
theorem resolved_of_inspectSite (hex : exec (m.inspectSite k path topology site) s = (.ok r, t)) :
    t.get? .resolution site.holder = some r := by
  rw [exec_inspectSite] at hex
  split at hex
  · next r' hr =>
    cases hex
    exact hr
  · split at hex
    · cases hex
    · split at hex
      · cases hex
      · next r' u _ =>
        split at hex
        · next hknown =>
          cases hex
          exact hknown
        · rcases @Cache.set_cases u .resolution site.main site.holder r' with
            ⟨v, hset, hst, _⟩ | ⟨_, _, _, hset⟩ | ⟨_, _, _, _, _, _, hset⟩
          all_goals
            rw [hset] at hex
            cases hex
          exact hst.get?_self

/-- What an inspection that succeeds leaves in the cache. -/
theorem inspected_of_inspect (hs : (m.rules fun _ => True).Settled s)
    (hex : exec (m.inspect path) s = (.ok r, t)) :
    ∃ topology site, Inspected m t path topology site r := by
  have horderly := hs.agrees.orderly
  cases hsite : m.siteAt? path with
  | error e =>
    obtain ⟨u, hex', _⟩ := exec_inspectWith_error horderly hsite
    have hboth := hex.symm.trans (hex' (m.lookups (2 * m.doc.size + 1)))
    cases hboth
  | ok found =>
    obtain ⟨topology, site⟩ := found
    obtain ⟨u, _, hex', hu, hst, htop⟩ :=
      exec_inspectWith_ok (m.lookups (2 * m.doc.size + 1)) horderly hsite
    have hinspect := hex'.symm.trans hex
    have hkeeps := Theory.keeps_inspectSite (lawful_rules governs_all.closed)
      (Theory.answers_lookups (lawful_rules governs_all.closed) (2 * m.doc.size + 1))
        trivial hsite u
      ⟨hs.agrees.steady hu hst, room_le u⟩
    rw [hinspect] at hkeeps
    exact ⟨topology, site, hsite, hkeeps.2.1.remembers .topology site.main topology htop,
      resolved_of_inspectSite hinspect⟩

/-- A path that was inspected is looked up without effect. -/
theorem Inspected.exec_inspect (h : Inspected m s path topology site r) :
    exec (m.inspect path) s = (.ok r, s) := by
  obtain ⟨_, hd, _, _, ha, _⟩ := siteAt?_eq_ok h.found
  have hdefinition : exec (ofExcept (m.doc.pathDefinition path)) s = (.ok site.main, s) := by
    rw [exec_ofExcept, hd]
  have hprepare := exec_prepare_stored (Document.isDefinition_of_pathDefinition hd) h.prepared
  have hsite : exec (ofExcept (Site.analyze m.doc topology path)) s = (.ok site, s) := by
    rw [exec_ofExcept, ha]
  have hknown : exec (fact? .resolution site.holder) s = (.ok (some r), s) := by
    rw [exec_fact?, h.resolved]
  change exec (m.inspectWith _ path) s = _
  rw [inspectWith, exec_bind_ok hdefinition, exec_bind_ok hprepare, exec_bind_ok hsite,
    exec_bind_ok hknown]
  rfl

/-- Once a path has been resolved in a session, it resolves to the same after any further requests
that do not drop the definition around it, whether they succeed or fail, and resolving it again
leaves the session as it is. -/
theorem inspection_repeats_without_effect {m : Model} {s t : Cache} {path : Path} {r : Resolution}
    (h : m.Reachable s) (hex : exec (m.inspect path) s = (.ok r, t)) :
    ∃ definition, m.doc.pathDefinition path = .ok definition ∧
      ∀ u, m.Later definition t u → exec (m.inspect path) u = (.ok r, u) := by
  have hs := settled_of_reachable h
  have ht : (m.rules fun _ => True).Settled t := by
    have hkept : (m.rules fun _ => True).Settled (exec (m.inspect path) s).2 :=
      (keeps_inspect governs_all trivial s hs).1
    rwa [hex] at hkept
  obtain ⟨topology, site, hin⟩ := inspected_of_inspect hs hex
  obtain ⟨_, hd, _⟩ := siteAt?_eq_ok hin.found
  refine ⟨site.main, hd, fun u hu => ?_⟩
  -- the topology and the resolution both belong to the definition of the path
  have hkept := (hu.retains ht).2
  have hmain := Document.owner?_of_isDefinition (Document.isDefinition_of_pathDefinition hd)
  exact Inspected.exec_inspect ⟨hin.found, hkept .topology _ _ hmain hin.prepared,
    hkept .resolution _ _ (owner?_holder hin.found) hin.resolved⟩

/-- The column of the view. -/
def viewColumn : Path :=
  ⟨[.key "definitions", .key "V", .key "query", .key "SELECT", .key "columns", .index 0]⟩

/-- The view's column is found again after the entity was dropped and a request has failed. -/
theorem viewColumn_repeats :
    ∃ r, exec (viewModel.inspect viewColumn) Cache.empty = (.ok r, viewSession) ∧
      viewModel.doc.pathDefinition viewColumn = .ok 6 ∧
      ∀ u, u = (exec (viewModel.answer (.effectiveType 0)) (exec (drop 2) viewSession).2).2 →
        exec (viewModel.inspect viewColumn) u = (.ok r, u) := by
  have hsome : (exec (viewModel.inspect viewColumn) Cache.empty).1.toOption.isSome = true := by
    decide +kernel
  obtain ⟨r, hr⟩ := Option.isSome_iff_exists.mp hsome
  have hex : exec (viewModel.inspect viewColumn) Cache.empty = (.ok r, viewSession) :=
    Prod.ext (eq_ok_of_toOption hr) rfl
  have hpath : viewModel.doc.pathDefinition viewColumn = .ok 6 :=
    eq_ok_of_toOption (by decide +kernel)
  obtain ⟨definition, hd, hrepeats⟩ := inspection_repeats_without_effect .new hex
  obtain rfl : (6 : NodeId) = definition := Except.ok.inj (hpath.symm.trans hd)
  refine ⟨r, hex, hpath, fun u hu => hrepeats u ?_⟩
  rw [hu]
  exact .after (.effectiveType 0) (by decide) (.after (.drop 2) (by decide) .now)

end Model

end SchemaRefs
