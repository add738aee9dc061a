import SchemaRefs.Proofs.Requests

/-!
# Resolutions are walks through the document

The links of a resolution follow the segments of the reference: each environment has elements, and
each further link is the element of that name in the environment of the link before
(`Model.ValidWalk`). The first link comes from one of many places, and these differ in whether they
know its environment; what they have in common is that an environment that they give has elements
(`Model.HeadValid`). The other links are added one at a time (`valid_followLinks`).

Aliases of queries hand on links of other resolutions, so that the statement is one about all
answers of a session at once: it extends the theory of the rules (`Theory.also`).
-/

namespace SchemaRefs

namespace Model

open Inquiry

variable {m : Model} {link : Link} {rest : List String} {env : NodeId} {site : Site}

/-! ## More about the same answers -/

namespace Theory

variable (T : Theory m) (extra : NodeId → Resolution → Prop)

/-- The theory in which resolutions have one more property. -/
def also : Theory m :=
  { T with kept := fun holder r => T.kept holder r ∧ extra holder r }

variable {T extra}

/-- A property that each resolution has if those that it asks for have it extends the theory. -/
theorem Lawful.also (hT : T.Lawful)
    (hextra : ∀ path topology site, m.siteAt? path = .ok (topology, site) →
      (m.resolveSite site topology).Meets (.answering fun r => ∃ holder, extra holder r)
        (extra site.holder)) : (T.also extra).Refines T := by
  have hres : ∀ path r, (T.also extra).Resolves path r → T.Resolves path r := by
    rintro path r ⟨topology, site, hsite, hkept, _⟩
    exact ⟨topology, site, hsite, hkept⟩
  have hmono : ∀ {α : Type} {x : Inquiry α} {post : α → Prop}, x.Meets T.contract post →
      x.Meets (T.also extra).contract post := fun hx =>
    hx.mono (fun _ h => h) (fun _ h => h) (fun path r _ h => hres path r h) (fun _ _ _ h => h)
      (fun _ h => h) fun _ h => h
  refine ⟨⟨fun path topology site hp hsite => ?_, hT.structured,
    fun node hn ho hs => ?_, hT.outside⟩,
    fun _ h => h, fun _ h => h, fun _ _ h => h.1, fun _ _ h => h, fun _ => .rfl⟩
  · refine (hmono (hT.site path topology site hp hsite)).both (hextra path topology site hsite) ?_
      fun _ _ _ => trivial
    rintro path r ⟨_, site, _, _, hr⟩
    exact ⟨site.holder, hr⟩
  · exact hmono (hT.link node hn ho hs)

end Theory

/-! ## Walks -/

variable (m) in
/-- An environment has elements. -/
def HasElements (env : Option NodeId) : Prop :=
  ∀ id, env = some id → m.doc.hasProp id "elements" = true

variable (m) in
/-- The links are those of the segments of a reference, or of the member or definition itself. -/
structure ValidWalk (site : Site) (r : Resolution) : Prop where
  unlinked : r.scope.isUnlinked = true → r.links = [] ∧ r.art = none
  linked : r.scope.isUnlinked = false → r.links.length = m.linkCount site ∧
    ∃ last, r.links.getLast? = some last ∧ r.art = some last.art ∧
      (r.context = .source → ∃ env, last.env = some env)
  envs : ∀ link ∈ r.links, m.HasElements link.env
  /-- Each further link is found in the environment of the one before. -/
  steps : ∀ i link next, r.links[i]? = some link → r.links[i + 1]? = some next →
    ∃ env name, link.env = some env ∧
      (m.segmentsOf site.holder)[i + 1]?.bind m.doc.segmentName? = some name ∧
      m.doc.memberIn? env name = some next.art

variable (m) in
/-- All environments in a resolution have elements. -/
def Navigable (r : Resolution) : Prop :=
  ∀ link ∈ r.links, m.HasElements link.env

theorem hasElements_none : m.HasElements none :=
  fun _ h => by cases h

theorem hasElements_some (h : m.doc.hasProp env "elements" = true) :
    m.HasElements (some env) :=
  fun _ heq => Option.some.inj heq ▸ h

theorem hasProp_of_memberIn? {member : NodeId} {name : String}
    (h : m.doc.memberIn? env name = some member) : m.doc.hasProp env "elements" = true := by
  obtain ⟨elements, he, _⟩ := Option.bind_eq_some_iff.mp h
  rw [Document.hasProp, he]
  rfl

/-! ## Environments -/

theorem valid_resolutionAt (path : Path) :
    (resolutionAt path).Meets (.answering m.Navigable) m.Navigable :=
  ⟨trivial, fun _ hr => hr⟩

theorem valid_envWithin (node : NodeId) (preferStatic : Bool) (steps : Nat) (current : NodeId) :
    (m.envWithin node preferStatic steps current).Meets (.answering m.Navigable) m.HasElements := by
  induction steps generalizing current with
  | zero => trivial
  | succ steps ih =>
    refine Meets.bind (meets_answering _) fun type _ => ?_
    split
    · exact ih _
    · split
      · next he =>
        obtain ⟨elements, he⟩ := Option.isSome_iff_exists.mp he
        have hp : m.doc.prop? type "elements" = some elements := Document.prop?_of_objectProp? he
        exact hasElements_some (by rw [Document.hasProp, hp]; rfl)
      · split
        · exact hasElements_none
        · split
          · split
            · exact ih _
            · trivial
          · split
            · next he => exact hasElements_some he
            · exact hasElements_none

theorem valid_envOf (node : NodeId) (preferStatic : Bool) :
    (m.envOf node preferStatic).Meets (.answering m.Navigable) m.HasElements :=
  valid_envWithin node preferStatic _ node

/-! ## The first segment -/

variable (m) in
/-- A head that denotes nodes gives an environment with elements, if any; the other ones are
variables and built-in types. -/
def HeadValid : Head → Prop
  | .bound link scope _ => m.HasElements link.env ∧ scope.isUnlinked = false
  | .unlinked scope => scope.isUnlinked = true

section Heads

variable {path : Path} {topology : Topology} {site : Site}

theorem valid_aliasLink (hsite : m.siteAt? path = .ok (topology, site)) (binding : AliasBinding) :
    (m.aliasLink topology binding).Meets (.answering m.Navigable) fun link =>
      m.HasElements link.env := by
  obtain ⟨links, _, _, hbuilt, _, _⟩ := siteAt?_eq_ok hsite
  cases binding with
  | path item =>
    refine Meets.bind (valid_resolutionAt _) fun r hr => ?_
    split
    · next link hl => exact hr link (List.mem_of_getLast? hl)
    · trivial
  | query item index =>
    simp only [aliasLink]
    split
    · next scope hs => exact fun env he => ((hbuilt.complete index scope hs).carrier env he).2
    · trivial

theorem vouches_hasElements (hsite : m.siteAt? path = .ok (topology, site)) :
    m.Vouches topology (.answering m.Navigable) fun link _ => m.HasElements link.env where
  free := meets_answering
  unset := fun _ _ => hasElements_none
  env := fun node => (valid_envOf node false).weaken fun _ he _ => he
  tableAlias := fun _ _ => valid_aliasLink hsite _

theorem valid_headOf (hsite : m.siteAt? path = .ok (topology, site)) (name : String)
    (segments : Nat) :
    (m.headOf site topology name segments).Meets (.answering m.Navigable) m.HeadValid := by
  refine (found_headOf (vouches_hasElements hsite) site name segments).weaken fun head hh => ?_
  cases head with
  | bound link scope binding => exact hh.1
  | unlinked scope => exact hh.1.isUnlinked

end Heads

/-! ## All segments -/

variable (m) in
/-- The links of a first segment and of the names that follow it. -/
structure LinksFollow (rest : List String) (links : List Link) : Prop where
  count : links.length = rest.length + 1
  envs : ∀ link ∈ links, m.HasElements link.env
  steps : ∀ i link next, links[i]? = some link → links[i + 1]? = some next →
    ∃ env name, link.env = some env ∧ rest[i]? = some name ∧
    m.doc.memberIn? env name = some next.art

theorem linksFollow_single (h : m.HasElements link.env) : m.LinksFollow [] [link] :=
  ⟨rfl, fun _ hmem => List.mem_singleton.mp hmem ▸ h, fun i _ _ _ hn => by simp at hn⟩

/-- One more link in front. -/
theorem LinksFollow.cons {next : String} {tail : List Link} (first : NodeId)
    (h : m.LinksFollow rest (link :: tail)) (hm : m.doc.memberIn? env next = some link.art) :
    m.LinksFollow (next :: rest) (⟨first, some env⟩ :: link :: tail) := by
  refine ⟨by rw [List.length_cons, h.count, List.length_cons], fun other ho => ?_,
    fun i other after hi hn => ?_⟩
  · rcases List.mem_cons.mp ho with rfl | ho
    · exact hasElements_some (hasProp_of_memberIn? hm)
    · exact h.envs other ho
  · cases i with
    | zero =>
      cases hi
      cases hn
      exact ⟨env, next, rfl, rfl, hm⟩
    | succ i => exact h.steps i other after hi hn

/-- The environment of the last link is not used by the links before. -/
theorem LinksFollow.setLast {front : List Link} {last : Link} {env : Option NodeId}
    (h : m.LinksFollow rest (front ++ [last])) (he : m.HasElements env) :
    m.LinksFollow rest (front ++ [{ last with env }]) := by
  refine ⟨by simpa using h.count, fun link hlink => ?_, fun i link next hi hn => ?_⟩
  · rcases List.mem_append.mp hlink with hlink | hlink
    · exact h.envs link (List.mem_append_left _ hlink)
    · rw [List.mem_singleton.mp hlink]
      exact he
  · have hlt : i < front.length := by
      have := (List.getElem?_eq_some_iff.mp hn).1
      simp at this
      omega
    rw [List.getElem?_append_left hlt] at hi
    by_cases hnext : i + 1 < front.length
    · rw [List.getElem?_append_left hnext] at hn
      exact h.steps i link next (by rw [List.getElem?_append_left hlt, hi])
        (by rw [List.getElem?_append_left hnext, hn])
    · have hend : i + 1 = front.length := by omega
      rw [hend, List.getElem?_concat_length] at hn
      cases hn
      exact h.steps i link last (by rw [List.getElem?_append_left hlt, hi])
        (by rw [hend, List.getElem?_concat_length])

theorem valid_followLinks (name : String) (rest : List String) (hl : m.HasElements link.env) :
    (m.followLinks name link rest).Meets (.answering m.Navigable) fun links =>
      m.LinksFollow rest links ∧ ∃ env tail, links = ⟨link.art, env⟩ :: tail := by
  induction rest generalizing name link with
  | nil => exact ⟨linksFollow_single hl, link.env, [], rfl⟩
  | cons next rest ih =>
    have hrest : ∀ env, (m.linksIn link next rest env).Meets (.answering m.Navigable) fun links =>
        m.LinksFollow (next :: rest) links ∧ ∃ env tail, links = ⟨link.art, env⟩ :: tail := by
      intro env
      unfold linksIn
      split
      · trivial
      · next art ha =>
        refine Meets.bind (ih next hasElements_none) fun links hlinks => ?_
        obtain ⟨hfollow, env', tail, rfl⟩ := hlinks
        exact ⟨hfollow.cons link.art ha, some env, _, rfl⟩
    unfold followLinks
    dsimp only
    split
    · exact hrest _
    · refine Meets.bind (meets_answering _) fun env _ => ?_
      split
      · exact hrest _
      · trivial

theorem valid_closeLinks (site : Site) (lastName : String) {links : List Link}
    (hl : m.LinksFollow rest links) :
    (m.closeLinks site lastName links).Meets (.answering m.Navigable) fun closed =>
      m.LinksFollow rest closed ∧ (site.context = .source →
        ∀ last, closed.getLast? = some last → ∃ env, last.env = some env) := by
  unfold closeLinks
  split
  · next hnone =>
    refine ⟨hl, fun _ last hlast => ?_⟩
    rw [hnone] at hlast
    cases hlast
  · next last hlast =>
    split
    · next hdone =>
      refine ⟨hl, fun hsource other hother => ?_⟩
      rw [hlast] at hother
      cases hother
      have hneeds : m.needsFinalEnv site = true := by
        rw [needsFinalEnv, hsource]
        rfl
      rw [hneeds, Bool.not_true, Bool.or_false] at hdone
      exact Option.isSome_iff_exists.mp hdone
    · refine Meets.bind (valid_envOf last.art false) fun env he => ?_
      split
      · trivial
      · next hfail =>
        obtain ⟨front, rfl⟩ := List.getLast?_eq_some_iff.mp hlast
        rw [List.dropLast_concat]
        refine ⟨hl.setLast he, fun hsource other hother => ?_⟩
        rw [List.getLast?_concat] at hother
        cases hother
        exact Option.ne_none_iff_exists'.mp (by simpa [hsource] using hfail)

theorem valid_resolveReference {path : Path} {topology : Topology}
    (hsite : m.siteAt? path = .ok (topology, site)) (hkind : site.kind = .reference) :
    (m.resolveReference site topology).Meets (.answering m.Navigable) (m.ValidWalk site) := by
  refine meets_reference (fun _ => trivial) fun name rest hnames => ?_
  obtain ⟨hlength, hnth⟩ := names_of_mapM hnames
  refine (valid_headOf hsite name _).weaken fun head hhead => ?_
  cases head with
  | unlinked scope =>
    refine ⟨fun _ => ⟨rfl, rfl⟩, fun hlinked => ?_, fun link hlink => (by cases hlink),
      fun i link next hi => by cases hi⟩
    have hunlinked : scope.isUnlinked = true := hhead
    rw [show scope.isUnlinked = false from hlinked] at hunlinked
    cases hunlinked
  | bound first scope env =>
    obtain ⟨henv, hscope⟩ := hhead
    refine Meets.bind (valid_followLinks name rest henv) fun links hlinks => ?_
    refine Meets.bind (valid_closeLinks site _ hlinks.1) fun closed hclosed => ?_
    obtain ⟨hfollow, hsource⟩ := hclosed
    refine ⟨fun hno => ?_, fun _ => ⟨?_, ?_⟩, hfollow.envs, fun i link next hi hn => ?_⟩
    · rw [show scope.isUnlinked = true from hno] at hscope
      cases hscope
    · rw [linkCount, hkind]
      exact hfollow.count.trans hlength
    · obtain ⟨last, hlast⟩ : ∃ last, closed.getLast? = some last := by
        refine Option.isSome_iff_exists.mp (List.getLast?_isSome.mpr fun hnil => ?_)
        have hcount := hfollow.count
        rw [hnil] at hcount
        cases hcount
      exact ⟨last, hlast, by rw [hlast]; rfl, fun hc => hsource hc last hlast⟩
    · obtain ⟨env, segment, he, hsegment, hm⟩ := hfollow.steps i link next hi hn
      exact ⟨env, segment, he, (hnth (i + 1)).symm.trans hsegment, hm⟩

theorem valid_resolveSite {path : Path} {topology : Topology}
    (hsite : m.siteAt? path = .ok (topology, site)) :
    (m.resolveSite site topology).Meets (.answering m.Navigable) (m.ValidWalk site) := by
  obtain ⟨_, _, _, _, _, hl⟩ := siteAt?_eq_ok hsite
  -- a member or a definition is its own resolution
  have hself : ∀ {node : NodeId} {parent : Option NodeId} {scope : Scope}, site.kind ≠ .reference →
      scope.isUnlinked = false →
      (do
        let env ← m.envOf node
        return { links := [⟨node, env⟩], art := some node, parent, scope, env := none,
                 context := site.context } : Inquiry Resolution).Meets (.answering m.Navigable)
        (m.ValidWalk site) := by
    intro node parent scope hkind hscope
    refine Meets.bind (valid_envOf node false) fun env he => ?_
    refine ⟨fun hno => ?_, fun _ => ⟨?_, ⟨node, env⟩, rfl, rfl, fun hc => ?_⟩,
      fun link hlink => List.mem_singleton.mp hlink ▸ he, fun i link next _ hn => by simp at hn⟩
    · rw [show scope.isUnlinked = true from hno] at hscope
      cases hscope
    · unfold linkCount
      split
      · next h => exact absurd h hkind
      · rfl
      · rfl
    · rw [hl.context hkind] at hc
      cases hc
  unfold resolveSite
  split
  · next hk => exact hself (by rw [hk]; decide) rfl
  · next hk => exact hself (by rw [hk]; decide) rfl
  · next hk => exact valid_resolveReference hsite hk

/-! ## All answers of a session -/

variable (m) in
/-- The resolution is a walk for a site with that holder. -/
def WalkOf (holder : NodeId) (r : Resolution) : Prop :=
  ∃ path topology site, m.siteAt? path = .ok (topology, site) ∧ site.holder = holder ∧
    m.ValidWalk site r

theorem governs_walks : ((m.rules fun _ => True).also m.WalkOf).Governs fun _ => True := by
  have hall : (m.rules fun _ => True).Governs fun _ => True := governs_all
  refine ⟨hall.closed, hall.refines.lawful.also fun path topology site hsite => ?_⟩
  refine (valid_resolveSite hsite).mono (fun _ h => h) (fun _ h => h) (fun _ r _ hr => ?_)
    (fun _ _ _ h => h) (fun _ h => h) fun r hr => ⟨path, topology, site, hsite, rfl, hr⟩
  obtain ⟨_, _, _, _, _, _, hwalk⟩ := hr
  exact hwalk.envs

theorem ValidWalk.congr {site' : Site} {r : Resolution} (h : m.ValidWalk site' r)
    (hkind : site.kind = site'.kind) (hholder : site.holder = site'.holder) :
    m.ValidWalk site r := by
  have hcount : m.linkCount site = m.linkCount site' := by
    unfold linkCount
    rw [hkind, hholder]
  exact ⟨h.unlinked, hcount ▸ h.linked, h.envs, hholder ▸ h.steps⟩

open CacheM

/-- Every resolution that a session answers with is a walk along the segments of the reference at
the path. -/
theorem resolution_is_valid_walk {m : Model} {s : Cache} {path : Path} {r : Resolution}
    (hs : m.Reachable s) (hr : (exec (m.inspect path) s).1 = .ok r) :
    ∃ topology site, m.siteAt? path = .ok (topology, site) ∧ m.ValidWalk site r := by
  obtain ⟨topology, site, hsite, _, path', topology', site', hsite', hholder, hwalk⟩ :=
    governs_walks.resolves hs trivial hr
  -- the resolution may have been found on another path to the same holder
  exact ⟨topology, site, hsite, hwalk.congr (kind_eq_of_holder hsite hsite' hholder.symm)
    hholder.symm⟩

/-! ### A walk through associations -/

/-- Books with an author, who has a home: a calculated element names the city of the author of a
book. -/
def bookModel : Model :=
  ⟨.ofDefinitions [
    ("Places", .object [("elements", .object
      [("city", .object [("type", .string "cds.String")])])]),
    ("Authors", .object [("elements", .object [("home", .object [("target", .string "Places")])])]),
    ("Books", .object [("elements", .object [("author", .object [("target", .string "Authors")]),
      ("origin", .object [("value", .object [
        ("ref", .array [.string "author", .string "home", .string "city"])])])])])], {}⟩

/-- The calculated element. -/
def bookOrigin : Path :=
  ⟨[.key "definitions", .key "Books", .key "elements", .key "origin", .key "value"]⟩

def bookSite : Site :=
  { kind := .reference, holder := 15, context := .calculated, main := 10, query := none,
    member := some 14, memberParent := some 10, base := none }

def bookResolution : Resolution :=
  { links := [⟨12, some 6⟩, ⟨8, some 2⟩, ⟨4, none⟩], art := some 4, parent := some 14,
    scope := .parent, env := none, context := .calculated }

/-- The reference walks from the book to its author, on to the home of the author and to the city
there. -/
theorem bookOrigin_is_valid_walk :
    (exec (bookModel.inspect bookOrigin) Cache.empty).1 = .ok bookResolution ∧
      bookModel.siteAt? bookOrigin = .ok (⟨10, [], []⟩, bookSite) ∧
      bookModel.ValidWalk bookSite bookResolution ∧ bookModel.doc.memberIn? 2 "city" = some 4 := by
  have hr : (exec (bookModel.inspect bookOrigin) Cache.empty).1 = .ok bookResolution :=
    eq_ok_of_toOption (by decide +kernel)
  have hsite : bookModel.siteAt? bookOrigin = .ok (⟨10, [], []⟩, bookSite) :=
    eq_ok_of_toOption (by decide +kernel)
  obtain ⟨topology, site, hsite', hwalk⟩ := resolution_is_valid_walk .new hr
  rw [hsite] at hsite'
  cases hsite'
  obtain ⟨env, name, henv, hname, hmember⟩ := hwalk.steps 1 ⟨8, some 2⟩ ⟨4, none⟩ rfl rfl
  have hcity : (bookModel.segmentsOf bookSite.holder)[1 + 1]?.bind bookModel.doc.segmentName? =
      some "city" := by decide +kernel
  rw [hcity] at hname
  cases henv
  cases hname
  exact ⟨hr, hsite, hwalk, hmember⟩

end Model

end SchemaRefs
