import SchemaRefs.Proofs.Requests
import SchemaRefs.Proofs.SemanticLocations
import SchemaRefs.Report.Basic

/-!
# What a report accounts for

A run answers for references, then for members, then for snapshots, and all of them are asked in one
session. Here they are the items of one list (`Report.items`). What the session is asked for an item
is `Report.consult`, so that the session in which an item is asked is the one after all items before
(`Report.sessionAfter`).

`Report.Answers items x` is the judgement about the steps of a run: `x` fails if one of the items
raises an assertion in its turn, and only then. Otherwise it leaves the session after all items and
has added one entry for each item to the report (`Report.AddsAll`). An entry counts as an error if
it has one. Here it matters that the description of a path can only fail where the inspection has
failed before (`execute_describeEntry`), since a path is looked at twice.

Main statement: a report has one entry for each path that was asked for, with the outcome of its
inspection; it counts the entries with errors; and a run without report is due to an unknown
definition or to an assertion (`accounts_for_requests_and_errors`).
-/

namespace SchemaRefs

open CommandLine CacheM

/-! ## Executions of runs -/

/-- The outcome of a step of a run, and the state that it leaves. -/
def RunM.execute {α : Type} (x : RunM α) (run : Run) : Except (List String) α × Run :=
  (StateT.run (ExceptT.run x) run).run

namespace RunM

variable {α β : Type} {run : Run}

@[simp] theorem execute_pure (a : α) (run : Run) : execute (pure a) run = (.ok a, run) := rfl

@[simp] theorem execute_throw (reasons : List String) (run : Run) :
    execute (throw reasons : RunM α) run = (.error reasons, run) := rfl

@[simp] theorem execute_modify (f : Run → Run) (run : Run) :
    execute (modify f : RunM PUnit) run = (.ok ⟨⟩, f run) := rfl

theorem execute_bind (x : RunM α) (f : α → RunM β) (run : Run) :
    execute (x >>= f) run =
      match execute x run with
      | (.ok a, next) => execute (f a) next
      | (.error reasons, next) => (.error reasons, next) := by
  simp only [execute, bind, ExceptT.bind, ExceptT.mk, ExceptT.run, StateT.bind, StateT.run, Id.run]
  cases h : x run with
  | mk outcome next => cases outcome <;> rfl

theorem execute_bind_ok {x : RunM α} {next : Run} {a : α} (h : execute x run = (.ok a, next))
    (f : α → RunM β) :
    execute (x >>= f) run = execute (f a) next := by
  rw [execute_bind, h]

theorem execute_bind_error {x : RunM α} {next : Run} {reasons : List String}
    (h : execute x run = (.error reasons, next)) (f : α → RunM β) :
    execute (x >>= f) run = (.error reasons, next) := by
  rw [execute_bind, h]

/-- The step ends the run. -/
def Fails (x : RunM α) (run : Run) : Prop :=
  ∃ reasons next, execute x run = (.error reasons, next)

theorem Fails.bind {x : RunM α} (h : Fails x run) (f : α → RunM β) : Fails (x >>= f) run := by
  obtain ⟨reasons, next, hx⟩ := h
  exact ⟨reasons, next, execute_bind_error hx f⟩

/-- If a later step ends the run in any case, an earlier one cannot prevent it. -/
theorem fails_bind {x : RunM α} {f : α → RunM β} (h : ∀ a next, Fails (f a) next) (run : Run) :
    Fails (x >>= f) run := by
  rcases hx : execute x run with ⟨reasons | a, next⟩
  · exact Fails.bind ⟨reasons, next, hx⟩ f
  · obtain ⟨reasons, last, hf⟩ := h a next
    exact ⟨reasons, last, by rw [execute_bind_ok hx, hf]⟩

theorem execute_observe (x : CacheM α) (run : Run) :
    execute (Report.observe x) run = (.ok (exec x run.cache).1,
      { run with cache := (exec x run.cache).2 }) :=
  rfl

theorem execute_recoverable_model (error : ModelError) (path : String) (run : Run) :
    execute (Report.recoverable (.model error) path) run =
      (.ok (ResolveError.model error).text, run) :=
  rfl

theorem fails_recoverable_assertion (cause : Assertion) (path : String) (run : Run) :
    Fails (Report.recoverable (.assertion cause) path) run :=
  ⟨_, run, rfl⟩

end RunM

namespace Report

open RunM

variable (m : Model) (args : Arguments)

/-! ## Items -/

/-- What a run answers for. -/
inductive Item where
  | reference (path : Path)
  | member (node : NodeId)
  | snapshot (definition : NodeId)
deriving Repr, DecidableEq, Inhabited

/-- What the session is asked for an item, up to the first failure. The description of a path is
left out: it neither changes the session nor raises an assertion. -/
def consult : Item → CacheM Unit
  | .reference path => do
    let _ ← m.inspect path
    return ()
  | .member node => do
    let _ ← askIf (args.has .origin) (m.origin node)
    let _ ← askIf (args.has .effectiveType) (m.effectiveType node)
    return ()
  | .snapshot definition => do
    let _ ← m.snapshot definition
    return ()

/-- The session after items. -/
def sessionAfter (items : List Item) (cache : Cache) : Cache :=
  items.foldl (fun cache item => (exec (consult m args item) cache).2) cache

/-- An item raises an assertion. -/
def Raises (item : Item) (cache : Cache) : Prop :=
  ∃ cause, (exec (consult m args item) cache).1 = .error (.assertion cause)

/-- One of the items raises an assertion in its turn. -/
def Raised (items : List Item) (cache : Cache) : Prop :=
  ∃ before item rest, items = before ++ item :: rest ∧
    Raises m args item (sessionAfter m args before cache)

variable {m args}

theorem sessionAfter_append (first rest : List Item) (cache : Cache) :
    sessionAfter m args (first ++ rest) cache =
      sessionAfter m args rest (sessionAfter m args first cache) :=
  List.foldl_append

theorem not_raised_nil (cache : Cache) : ¬ Raised m args [] cache := by
  rintro ⟨before, item, rest, hsplit, _⟩
  cases before <;> cases hsplit

theorem raised_cons_iff {item : Item} {rest : List Item} {cache : Cache} :
    Raised m args (item :: rest) cache ↔
      Raises m args item cache ∨ Raised m args rest (sessionAfter m args [item] cache) := by
  constructor
  · rintro ⟨before, raising, others, hsplit, hraises⟩
    cases before with
    | nil =>
      cases hsplit
      exact .inl hraises
    | cons first before =>
      cases hsplit
      exact .inr ⟨before, raising, others, rfl, hraises⟩
  · rintro (hraises | ⟨before, raising, others, rfl, hraises⟩)
    · exact ⟨[], item, rest, rfl, hraises⟩
    · exact ⟨item :: before, raising, others, rfl, hraises⟩

theorem raised_append_iff {first rest : List Item} {cache : Cache} :
    Raised m args (first ++ rest) cache ↔
      Raised m args first cache ∨ Raised m args rest (sessionAfter m args first cache) := by
  induction first generalizing cache with
  | nil => exact ⟨.inr, fun h => h.resolve_left (not_raised_nil cache)⟩
  | cons item first ih =>
    rw [List.cons_append, raised_cons_iff, raised_cons_iff, ih, or_assoc]
    rfl

/-! ## Entries -/

end Report

/-- The entry tells the outcome of the inspection of a path: a resolution or an error, and not
both. -/
inductive ReferenceEntry.Tells (entry : ReferenceEntry) (path : Path) :
    Except ResolveError Resolution → Prop where
  | resolved {resolution : Resolution} : entry.path = path.text →
      entry.resolution = some resolution → entry.error = none → entry.Tells path (.ok resolution)
  | failed {error : ResolveError} : entry.path = path.text → entry.resolution = none →
      entry.error = some error.text → entry.Tells path (.error error)

theorem ReferenceEntry.Tells.described {entry : ReferenceEntry} {path : Path}
    {outcome : Except ResolveError Resolution} (h : entry.Tells path outcome)
    (location : Option Location) (semantic : Option String) :
    { entry with location, semantic : ReferenceEntry }.Tells path outcome := by
  cases h with
  | resolved hpath hresolution herror => exact .resolved hpath hresolution herror
  | failed hpath hresolution herror => exact .failed hpath hresolution herror

theorem ReferenceEntry.Tells.exactly_one {entry : ReferenceEntry} {path : Path}
    {outcome : Except ResolveError Resolution} (h : entry.Tells path outcome) :
    entry.resolution.isSome = !entry.error.isSome := by
  cases h with
  | resolved _ hresolution herror => simp [hresolution, herror]
  | failed _ hresolution herror => simp [hresolution, herror]

/-- The snapshot is recorded as an error. -/
def SnapshotEntry.isFailed : SnapshotEntry → Bool
  | .taken _ => false
  | .failed _ _ => true

namespace Report

open RunM

variable {m : Model} {args : Arguments} {cache : Cache} {first rest : List Item} {paths : List Path}
  {path : Path} {entry : ReferenceEntry} {after before : Report} {run : Run} {α : Type}

/-- The number of entries that record an error. -/
def recordedErrors (report : Report) : Nat :=
  report.references.countP (·.error.isSome) + report.members.countP (·.error.isSome) +
    report.snapshots.countP SnapshotEntry.isFailed

variable (m) in
/-- The second report is the first one with an entry for an item that is asked in a session. -/
inductive Adds : Item → Cache → Report → Report → Prop where
  | reference {path : Path} {cache : Cache} {report : Report} (entry : ReferenceEntry) :
      entry.Tells path (exec (m.inspect path) cache).1 →
      Adds (.reference path) cache report
        { report with
          references := report.references ++ [entry]
          errors := report.errors + entry.error.isSome.toNat }
  | member {node : NodeId} {cache : Cache} {report : Report} (entry : MemberEntry) :
      Adds (.member node) cache report
        { report with
          members := report.members ++ [entry]
          errors := report.errors + entry.error.isSome.toNat }
  | snapshot {definition : NodeId} {cache : Cache} {report : Report} (entry : SnapshotEntry) :
      Adds (.snapshot definition) cache report
        { report with
          snapshots := report.snapshots ++ [entry]
          errors := report.errors + entry.isFailed.toNat }

theorem countP_concat (p : α → Bool) (l : List α) (a : α) :
    (l ++ [a]).countP p = l.countP p + (p a).toNat := by
  rw [List.countP_append, List.countP_singleton]
  cases p a <;> rfl

/-- One more entry with an error is one more error. -/
theorem Adds.errors_eq {item : Item} (h : Adds m item cache before after)
    (hb : before.errors = before.recordedErrors) : after.errors = after.recordedErrors := by
  unfold recordedErrors at hb ⊢
  cases h with
  | reference entry _ =>
    simp only [countP_concat]
    omega
  | member entry =>
    simp only [countP_concat]
    omega
  | snapshot entry =>
    simp only [countP_concat]
    omega

variable (m args) in
/-- The second report is the first one with an entry for each item, in order, where each is asked
after those before. -/
inductive AddsAll : List Item → Cache → Report → Report → Prop where
  | nil {cache : Cache} {report : Report} : AddsAll [] cache report report
  | cons {item : Item} {rest : List Item} {cache : Cache} {before mid after : Report} :
      Adds m item cache before mid → AddsAll rest (sessionAfter m args [item] cache) mid after →
      AddsAll (item :: rest) cache before after

theorem AddsAll.append {mid : Report} (h : AddsAll m args first cache before mid)
    (hrest : AddsAll m args rest (sessionAfter m args first cache) mid after) :
    AddsAll m args (first ++ rest) cache before after := by
  induction h with
  | nil => exact hrest
  | cons hitem _ ih => exact .cons hitem (ih hrest)

theorem AddsAll.split (h : AddsAll m args (first ++ rest) cache before after) :
    ∃ mid, AddsAll m args first cache before mid ∧
      AddsAll m args rest (sessionAfter m args first cache) mid after := by
  induction first generalizing cache before with
  | nil => exact ⟨before, .nil, h⟩
  | cons item first ih =>
    cases h with
    | cons hitem hrest =>
      obtain ⟨mid, hfirst, hrest⟩ := ih hrest
      exact ⟨mid, .cons hitem hfirst, hrest⟩

theorem AddsAll.errors_eq {items : List Item}
    (h : AddsAll m args items cache before after) (hb : before.errors = before.recordedErrors) :
    after.errors = after.recordedErrors := by
  induction h with
  | nil => exact hb
  | cons hitem _ ih => exact ih (hitem.errors_eq hb)

theorem AddsAll.references_eq {items : List Item}
    (h : AddsAll m args items cache before after) (hitems : ∀ path, .reference path ∉ items) :
    after.references = before.references := by
  induction h with
  | nil => rfl
  | cons hitem _ ih =>
    rw [ih fun path hmem => hitems path (List.mem_cons_of_mem _ hmem)]
    cases hitem with
    | reference entry _ => exact absurd List.mem_cons_self (hitems _)
    | member entry => rfl
    | snapshot entry => rfl

variable (m args) in
/-- The entries tell, in order, the outcomes of inspecting the paths, each in the session after
those before. -/
def TellAll (paths : List Path) (cache : Cache) (entries : List ReferenceEntry) : Prop :=
  entries.length = paths.length ∧
    ∀ (k : Nat) (path : Path) (entry : ReferenceEntry), paths[k]? = some path →
    entries[k]? = some entry → entry.Tells path
      (exec (m.inspect path) (sessionAfter m args ((paths.take k).map .reference) cache)).1

theorem TellAll.cons
    {entries : List ReferenceEntry} (h : entry.Tells path (exec (m.inspect path) cache).1)
    (hrest : TellAll m args paths (sessionAfter m args [.reference path] cache) entries) :
    TellAll m args (path :: paths) cache (entry :: entries) := by
  refine ⟨congrArg (· + 1) hrest.1, fun k later told hpath hentry => ?_⟩
  cases k with
  | zero =>
    cases hpath
    cases hentry
    exact h
  | succ k => exact hrest.2 k later told hpath hentry

theorem AddsAll.tellAll (h : AddsAll m args (paths.map .reference) cache before after) :
    ∃ entries, after.references = before.references ++ entries ∧
    TellAll m args paths cache entries := by
  induction paths generalizing cache before with
  | nil =>
    cases h
    exact ⟨[], (List.append_nil _).symm, rfl, fun k path entry hpath => by simp at hpath⟩
  | cons path paths ih =>
    cases h with
    | cons hitem hrest =>
      cases hitem with
      | reference entry htells =>
        obtain ⟨entries, hreferences, htold⟩ := ih hrest
        refine ⟨entry :: entries, ?_, htold.cons htells⟩
        rw [hreferences, List.append_assoc]
        rfl

/-! ## One item -/

variable (m args) in
/-- A step of a run answers for items. It fails exactly if one of them raises an assertion, and
otherwise leaves the session after all of them and a report with their entries. -/
def Answers (items : List Item) (x : RunM Unit) : Prop :=
  ∀ run, (Raised m args items run.cache → Fails x run) ∧
    (¬ Raised m args items run.cache →
      ∃ report, execute x run = (.ok (), ⟨sessionAfter m args items run.cache, report⟩) ∧
      AddsAll m args items run.cache run.report report)

theorem answers_one {item : Item} {x : RunM Unit}
    (hraises : ∀ run cause, (exec (consult m args item) run.cache).1 = .error (.assertion cause) →
      Fails x run)
    (hends : ∀ run, ¬ Raises m args item run.cache →
      ∃ report, execute x run = (.ok (), ⟨(exec (consult m args item) run.cache).2, report⟩) ∧
      Adds m item run.cache run.report report) : Answers m args [item] x := by
  intro run
  rw [raised_cons_iff]
  refine ⟨fun h => ?_, fun h => ?_⟩
  · obtain ⟨cause, hcause⟩ := h.resolve_right (not_raised_nil _)
    exact hraises run cause hcause
  · obtain ⟨report, hex, hadds⟩ := hends run fun hraise => h (.inl hraise)
    exact ⟨report, hex, .cons hadds .nil⟩

/-- A path that can be inspected leads into a definition. -/
theorem definition_of_inspect {resolution : Resolution}
    (h : (exec (m.inspect path) cache).1 = .ok resolution) :
    ∃ definition, path.definitionName?.bind m.doc.definition? = some definition := by
  have hbegin : exec (m.inspect path) cache =
      exec (m.inspectWith (m.lookups (2 * m.doc.size + 1)) path) cache := rfl
  rw [hbegin, Model.inspectWith, exec_bind, exec_ofExcept, Document.pathDefinition] at h
  cases hname : path.definitionName? with
  | none =>
    rw [hname] at h
    cases h
  | some name =>
    cases hd : m.doc.definition? name with
    | none =>
      simp only [hname, hd] at h
      cases h
    | some definition => exact ⟨definition, hd⟩

theorem definition_of_tells
    (h : entry.Tells path (exec (m.inspect path) cache).1) (herror : entry.error = none) :
    ∃ definition, path.definitionName?.bind m.doc.definition? = some definition := by
  cases hout : (exec (m.inspect path) cache).1 with
  | ok resolution => exact definition_of_inspect hout
  | error error =>
    rw [hout] at h
    cases h with
    | failed _ _ hfailed =>
      rw [herror] at hfailed
      cases hfailed

/-- The description of a path changes neither the session nor the outcome that is recorded for the
path: where it fails, the path has failed before. -/
theorem execute_describeEntry (run : Run)
    (h : entry.error = none →
      ∃ definition, path.definitionName?.bind m.doc.definition? = some definition) :
    ∃ location semantic, execute (describeEntry m path entry) run =
      (.ok { entry with location, semantic }, run) := by
  rw [describeEntry, execute_bind_ok (execute_observe _ run)]
  cases hd : path.definitionName?.bind m.doc.definition? with
  | some definition =>
    rw [Model.exec_describe_inside hd]
    exact ⟨_, _, rfl⟩
  | none =>
    obtain ⟨message, he⟩ := Option.ne_none_iff_exists'.mp fun hnone => by
      obtain ⟨definition, hinside⟩ := h hnone
      rw [hd] at hinside
      cases hinside
    rw [Model.exec_describe_outside hd]
    dsimp only
    rw [execute_bind_ok (execute_recoverable_model _ _ _), if_pos (by rw [he]; rfl)]
    exact ⟨entry.location, entry.semantic, rfl⟩

/-- The inspection of a path is counted as an error if it fails. -/
theorem execute_resolutionEntry
    (h : ∀ cause, (exec (m.inspect path) run.cache).1 ≠ .error (.assertion cause)) :
    ∃ entry : ReferenceEntry, entry.Tells path (exec (m.inspect path) run.cache).1 ∧
      execute (resolutionEntry m path) run =
        (.ok entry, ⟨(exec (m.inspect path) run.cache).2,
          { run.report with errors := run.report.errors + entry.error.isSome.toNat }⟩) := by
  rw [resolutionEntry, execute_bind_ok (execute_observe _ run)]
  cases hout : (exec (m.inspect path) run.cache).1 with
  | ok resolution => exact ⟨_, .resolved rfl rfl rfl, rfl⟩
  | error error =>
    cases error with
    | model error => exact ⟨_, .failed rfl rfl rfl, rfl⟩
    | assertion cause => exact absurd hout (h cause)

theorem fails_resolutionEntry {cause : Assertion}
    (h : (exec (m.inspect path) run.cache).1 = .error (.assertion cause)) :
    Fails (resolutionEntry m path) run := by
  rw [Fails, resolutionEntry, execute_bind_ok (execute_observe _ run), h]
  exact Fails.bind (fails_recoverable_assertion cause path.text _) _

theorem error_of_map {β : Type} {outcome : Except ResolveError α} {f : α → β} {error : ResolveError}
    (h : outcome.map f = .error error) : outcome = .error error := by
  cases outcome with
  | ok value => cases h
  | error found =>
    cases h
    rfl

theorem exec_consult_reference (path : Path) (cache : Cache) :
    exec (consult m args (.reference path)) cache =
      ((exec (m.inspect path) cache).1.map fun _ => (), (exec (m.inspect path) cache).2) := by
  rw [consult, exec_bind]
  rcases exec (m.inspect path) cache with ⟨_ | _, _⟩ <;> rfl

theorem answers_reference (path : Path) :
    Answers m args [.reference path] (answerReference m args path) := by
  refine answers_one (fun run cause hcause => ?_) fun run hnot => ?_
  · rw [exec_consult_reference] at hcause
    exact Fails.bind (fails_resolutionEntry (error_of_map hcause)) _
  · have hout : ∀ cause, (exec (m.inspect path) run.cache).1 ≠ .error (.assertion cause) := by
      intro cause hcause
      exact hnot ⟨cause, by rw [exec_consult_reference, hcause]; rfl⟩
    obtain ⟨entry, htells, hentry⟩ := execute_resolutionEntry hout
    rw [answerReference, execute_bind_ok hentry, exec_consult_reference]
    by_cases hlocations : args.has .locations = true
    · rw [if_pos hlocations]
      obtain ⟨location, semantic, hdescribed⟩ :=
        execute_describeEntry _ (definition_of_tells htells)
      rw [execute_bind_ok hdescribed]
      exact ⟨_, rfl, .reference { entry with location, semantic }
        (htells.described location semantic)⟩
    · rw [if_neg hlocations]
      exact ⟨_, rfl, .reference entry htells⟩

variable (m args) in
/-- What is found out about a member comes from the same questions in the same order, and the
failure is the first one. -/
theorem execute_memberFacts (node : NodeId) (run : Run) :
    ∃ (entry : MemberEntry) (failure : Option ResolveError), execute (memberFacts m args node) run =
        (.ok (entry, failure),
          { run with cache := (exec (consult m args (.member node)) run.cache).2 }) ∧
      entry.error = none ∧
      (exec (consult m args (.member node)) run.cache).1 = failure.elim (.ok ()) .error := by
  rw [memberFacts, execute_bind_ok (execute_observe _ run), consult, exec_bind]
  rcases exec (askIf (args.has .origin) (m.origin node)) run.cache with ⟨error | origin, next⟩
  · exact ⟨_, some error, rfl, rfl, rfl⟩
  · dsimp only
    rw [execute_bind_ok (execute_observe _ _), exec_bind]
    dsimp only
    rcases exec (askIf (args.has .effectiveType) (m.effectiveType node))
      next with ⟨error | type, last⟩
    · exact ⟨_, some error, rfl, rfl, rfl⟩
    · exact ⟨_, none, rfl, rfl, rfl⟩

theorem answers_member (node : NodeId) :
    Answers m args [.member node] (answerMember m args node) := by
  refine answers_one (fun run cause hcause => ?_) fun run hnot => ?_
  · obtain ⟨entry, failure, hex, _, hout⟩ := execute_memberFacts m args node run
    rw [Fails, answerMember, execute_bind_ok hex]
    rw [hcause] at hout
    cases failure with
    | none => cases hout
    | some error =>
      cases hout
      exact Fails.bind (fails_recoverable_assertion cause entry.path _) _
  · obtain ⟨entry, failure, hex, hentry, hout⟩ := execute_memberFacts m args node run
    rw [answerMember, execute_bind_ok hex]
    cases failure with
    | none =>
      refine ⟨_, rfl, ?_⟩
      have hadds : Adds m (.member node) run.cache run.report _ := .member entry
      rwa [hentry] at hadds
    | some error =>
      cases error with
      | model error => exact ⟨_, rfl, .member { entry with error := some _ }⟩
      | assertion cause => exact absurd ⟨cause, hout⟩ hnot

theorem exec_consult_snapshot (definition : NodeId) (cache : Cache) :
    exec (consult m args (.snapshot definition)) cache =
      ((exec (m.snapshot definition) cache).1.map fun _ => (),
        (exec (m.snapshot definition) cache).2) := by
  rw [consult, exec_bind]
  rcases exec (m.snapshot definition) cache with ⟨_ | _, _⟩ <;> rfl

theorem answers_snapshot (definition : NodeId) :
    Answers m args [.snapshot definition] (answerSnapshot m definition) := by
  refine answers_one (fun run cause hcause => ?_) fun run hnot => ?_
  · rw [exec_consult_snapshot] at hcause
    rw [Fails, answerSnapshot, execute_bind_ok (execute_observe _ run), error_of_map hcause]
    exact Fails.bind (fails_recoverable_assertion cause _ _) _
  · rw [answerSnapshot, execute_bind_ok (execute_observe _ run), exec_consult_snapshot]
    cases hout : (exec (m.snapshot definition) run.cache).1 with
    | ok snapshot => exact ⟨_, rfl, .snapshot (.taken snapshot)⟩
    | error error =>
      cases error with
      | model error => exact ⟨_, rfl, .snapshot (.failed _ _)⟩
      | assertion cause => exact absurd ⟨cause, by rw [exec_consult_snapshot, hout]; rfl⟩ hnot

/-! ## Many items -/

theorem Answers.nil : Answers m args [] (pure ()) :=
  fun run => ⟨fun h => absurd h (not_raised_nil run.cache), fun _ => ⟨run.report, rfl, .nil⟩⟩

theorem Answers.append {x y : RunM Unit} (hx : Answers m args first x)
    (hy : Answers m args rest y) : Answers m args (first ++ rest) (x >>= fun _ => y) := by
  intro run
  rw [raised_append_iff, sessionAfter_append]
  by_cases hfirst : Raised m args first run.cache
  · exact ⟨fun _ => ((hx run).1 hfirst).bind _, fun hnot => absurd (.inl hfirst) hnot⟩
  · obtain ⟨mid, hex, hmid⟩ := (hx run).2 hfirst
    obtain ⟨hraised, hends⟩ := hy ⟨sessionAfter m args first run.cache, mid⟩
    rw [Fails, execute_bind_ok hex]
    refine ⟨fun h => hraised (h.resolve_left hfirst), fun hnot => ?_⟩
    obtain ⟨report, hey, hrest⟩ := hends fun hrest => hnot (.inr hrest)
    exact ⟨report, hey, hmid.append hrest⟩

theorem Answers.forM {item : α → Item} {answer : α → RunM Unit}
    (h : ∀ a, Answers m args [item a] (answer a)) (l : List α) :
    Answers m args (l.map item) (l.forM answer) := by
  induction l with
  | nil => exact .nil
  | cons a rest ih => exact (h a).append ih

/-! ## What is asked for -/

section

variable (doc : Document) (args : Arguments)

/-- The definitions that the run is restricted to, or all of them. An unknown name selects
nothing. -/
def selection : List NodeId :=
  match args.definition with
  | none => doc.definitionEntries.map Prod.snd
  | some name => (doc.definition? name).toList

/-- The paths that are asked for: those named, then those found in the selected definitions. -/
def askedPaths : List Path :=
  args.paths.map Path.parse ++
    if args.has .all then (selection doc args).flatMap doc.referencePaths else []

/-- The members that are asked for: those named, then the selected definitions with their
elements. -/
def askedMembers : List NodeId :=
  if args.has .origin || args.has .effectiveType then
    (args.paths.map Path.parse).filterMap doc.nodeAt? ++
      if args.has .all then (selection doc args).flatMap (definitionMembers doc) else []
  else []

/-- The definitions whose snapshots are asked for: the selected ones, or else those that own the
nodes named. -/
def askedSnapshots : List NodeId :=
  if args.has .snapshot then
    if args.definition.isSome || args.has .all then selection doc args else namedOwners doc args
  else []

/-- What a run answers for, in order. -/
def items : List Item :=
  (askedPaths doc args).map .reference ++
    ((askedMembers doc args).map .member ++ (askedSnapshots doc args).map .snapshot)

/-- Something is selected, and the definition that the selection is restricted to does not exist. -/
def LacksDefinition : Prop :=
  (args.has .all = true ∨ args.has .snapshot = true) ∧
    ∃ name, args.definition = some name ∧ doc.definition? name = none

end

variable {doc : Document}

theorem selectedDefinitions_eq_ok
    (h : ∀ name, args.definition = some name → doc.definition? name ≠ none) :
    selectedDefinitions doc args = .ok (selection doc args) := by
  unfold selectedDefinitions selection
  cases hname : args.definition with
  | none => rfl
  | some name =>
    obtain ⟨definition, hd⟩ := Option.ne_none_iff_exists'.mp (h name hname)
    simp only [hd]
    rfl

theorem selectedDefinitions_of_not_lacks (h : ¬ LacksDefinition doc args)
    (hneeded : args.has .all = true ∨ args.has .snapshot = true) :
    selectedDefinitions doc args = .ok (selection doc args) :=
  selectedDefinitions_eq_ok fun name hname hnone => h ⟨hneeded, name, hname, hnone⟩

theorem andSelected_eq_ok (h : ¬ LacksDefinition doc args) (named : List α)
    (found : NodeId → List α) :
    andSelected doc args named found =
      .ok (named ++ if args.has .all then (selection doc args).flatMap found else []) := by
  unfold andSelected
  by_cases hall : args.has .all = true
  · rw [if_pos hall, if_pos hall, selectedDefinitions_of_not_lacks h (.inl hall)]
    rfl
  · rw [if_neg hall, if_neg hall, List.append_nil]

theorem answers_collectReferences (h : ¬ LacksDefinition m.doc args) :
    Answers m args ((askedPaths m.doc args).map .reference) (collectReferences m args) := by
  rw [collectReferences, requestedPaths, andSelected_eq_ok h]
  exact Answers.forM answers_reference _

theorem answers_collectMembers (h : ¬ LacksDefinition m.doc args) :
    Answers m args ((askedMembers m.doc args).map .member) (collectMembers m args) := by
  unfold collectMembers askedMembers
  by_cases hwants : (args.has .origin || args.has .effectiveType) = true
  · rw [if_pos hwants, if_pos hwants, requestedMembers, andSelected_eq_ok h]
    exact Answers.forM answers_member _
  · rw [if_neg hwants, if_neg hwants]
    exact .nil

theorem answers_collectSnapshots (h : ¬ LacksDefinition m.doc args) :
    Answers m args ((askedSnapshots m.doc args).map .snapshot) (collectSnapshots m args) := by
  unfold collectSnapshots askedSnapshots requestedSnapshots
  by_cases hwants : args.has .snapshot = true
  · rw [if_pos hwants, if_pos hwants]
    split
    · rw [selectedDefinitions_of_not_lacks h (.inr hwants)]
      exact Answers.forM answers_snapshot _
    · exact Answers.forM answers_snapshot _
  · rw [if_neg hwants, if_neg hwants]
    exact .nil

theorem answers_collect (h : ¬ LacksDefinition m.doc args) :
    Answers m args (items m.doc args) (collect m args) :=
  (answers_collectReferences h).append
    ((answers_collectMembers h).append (answers_collectSnapshots h))

theorem fails_collect (h : LacksDefinition m.doc args) (run : Run) :
    Fails (collect m args) run := by
  obtain ⟨hneeded, name, hname, hnone⟩ := h
  have hselected : selectedDefinitions m.doc args =
      .error ["no definition named `" ++ name ++ "`"] := by
    simp only [selectedDefinitions, hname, hnone]
  by_cases hall : args.has .all = true
  · have hpaths : requestedPaths m.doc args = .error ["no definition named `" ++ name ++ "`"] := by
      rw [requestedPaths, andSelected, if_pos hall, hselected]
      rfl
    refine Fails.bind ?_ _
    rw [collectReferences, hpaths]
    exact ⟨_, run, rfl⟩
  · refine fails_bind (fun _ next => fails_bind (fun _ last => ?_) next) run
    rw [collectSnapshots, if_pos (hneeded.resolve_left hall), requestedSnapshots, hname, hselected]
    exact ⟨_, last, rfl⟩

/-! ## The whole run -/

theorem ofDocument_of_execute {outcome : Except (List String) Unit}
    (h : execute (collect (modelFor doc args) args) ⟨Cache.empty, {}⟩ = (outcome, run)) :
    ofDocument doc args = outcome.map fun _ => run.report := by
  have hdef : ofDocument doc args =
      (execute (collect (modelFor doc args) args) ⟨Cache.empty, {}⟩).1.map fun _ =>
        (execute (collect (modelFor doc args) args) ⟨Cache.empty, {}⟩).2.report := rfl
  rw [hdef, h]

/-- A report comes from a run in which all items have been answered, and there is none if one of
them raises an assertion or a definition is lacking. -/
theorem ofDocument_cases (doc : Document) (args : Arguments) :
    ((LacksDefinition doc args ∨ Raised (modelFor doc args) args (items doc args) Cache.empty) ∧
        ∃ reasons, ofDocument doc args = .error reasons) ∨
      (¬ (LacksDefinition doc args ∨ Raised (modelFor doc args) args (items doc args) Cache.empty) ∧
        ∃ report, ofDocument doc args = .ok report ∧
          AddsAll (modelFor doc args) args (items doc args) Cache.empty {} report) := by
  by_cases hlacks : LacksDefinition doc args
  · obtain ⟨reasons, run, hex⟩ := fails_collect (m := modelFor doc args) hlacks ⟨Cache.empty, {}⟩
    exact .inl ⟨.inl hlacks, reasons, ofDocument_of_execute hex⟩
  · obtain ⟨hraised, hends⟩ := answers_collect (m := modelFor doc args) hlacks ⟨Cache.empty, {}⟩
    by_cases hr : Raised (modelFor doc args) args (items doc args) Cache.empty
    · obtain ⟨reasons, run, hex⟩ := hraised hr
      exact .inl ⟨.inr hr, reasons, ofDocument_of_execute hex⟩
    · obtain ⟨report, hex, hadds⟩ := hends hr
      exact .inr ⟨fun h => h.elim hlacks hr, report, ofDocument_of_execute hex, hadds⟩

theorem tellAll_of_addsAll {report : Report}
    (h : AddsAll m args (items m.doc args) Cache.empty {} report) :
    TellAll m args (askedPaths m.doc args) Cache.empty report.references := by
  obtain ⟨mid, hpaths, hothers⟩ := h.split
  obtain ⟨entries, hentries, htold⟩ := hpaths.tellAll
  rw [hothers.references_eq (by simp), hentries]
  exact htold

theorem TellAll.exactly_one {entries : List ReferenceEntry}
    (h : TellAll m args paths cache entries) (hentry : entry ∈ entries) :
    entry.resolution.isSome = !entry.error.isSome := by
  obtain ⟨k, hk⟩ := List.mem_iff_getElem?.mp hentry
  have hlt : k < paths.length := h.1 ▸ (List.getElem?_eq_some_iff.mp hk).1
  exact (h.2 k _ entry (List.getElem?_eq_getElem hlt) hk).exactly_one

/-- A report has one entry for each path that is asked for, in order, with the resolution that the
path has in its turn, or with the error, and not both. It counts one error for each reference,
member and snapshot that is recorded with one. There is a report unless a selection is restricted to
an unknown definition, or one of the paths, members and snapshots that are asked for raises an
assertion in its turn. -/
theorem accounts_for_requests_and_errors (doc : Document) (args : Arguments) :
    (∀ report, ofDocument doc args = .ok report →
      (report.references.length = (askedPaths doc args).length ∧
        ∀ (k : Nat) (path : Path) (entry : ReferenceEntry), (askedPaths doc args)[k]? = some path →
          report.references[k]? = some entry →
          entry.Tells path (exec ((modelFor doc args).inspect path)
            (sessionAfter (modelFor doc args) args
              (((askedPaths doc args).take k).map .reference) Cache.empty)).1) ∧
      (∀ entry ∈ report.references, entry.resolution.isSome = !entry.error.isSome) ∧
      report.errors =
        report.references.countP (·.error.isSome) + report.members.countP (·.error.isSome) +
          report.snapshots.countP SnapshotEntry.isFailed) ∧
    ((∃ reasons, ofDocument doc args = .error reasons) ↔
      ((args.has .all = true ∨ args.has .snapshot = true) ∧
        ∃ name, args.definition = some name ∧ doc.definition? name = none) ∨
      ∃ before item rest, items doc args = before ++ item :: rest ∧
        ∃ cause, (exec (consult (modelFor doc args) args item)
          (sessionAfter (modelFor doc args) args before Cache.empty)).1 =
            .error (.assertion cause)) := by
  rcases ofDocument_cases doc args with ⟨hcause, reasons, hfails⟩ | ⟨hno, found, hfound, hadds⟩
  · refine ⟨fun report hreport => ?_, fun _ => hcause, fun _ => ⟨reasons, hfails⟩⟩
    rw [hfails] at hreport
    cases hreport
  · refine ⟨fun report hreport => ?_, ?_, fun h => absurd h hno⟩
    · obtain rfl : found = report := Except.ok.inj (hfound.symm.trans hreport)
      have htold := tellAll_of_addsAll hadds
      exact ⟨htold, fun entry => htold.exactly_one, hadds.errors_eq rfl⟩
    · rintro ⟨reasons, hfails⟩
      rw [hfound] at hfails
      cases hfails

/-- A definition, a member without effective type, a path that leads nowhere, and a snapshot that
cannot be taken. -/
def placedArguments : Arguments :=
  { input := "model.json", paths := ["definitions/A", "definitions/A/elements/x", "nowhere"],
    definition := some "V", switches := [.effectiveType, .locations, .snapshot] }

/-- The path that leads nowhere is counted once, although it has no location either. The run ends if
the snapshot is asked of an unknown definition, or the origin of something outside of all
definitions. -/
theorem placedArguments_accounted :
    (∃ report, ofDocument Model.placedModel.doc placedArguments = .ok report ∧
      report.references.length = 3 ∧
      report.references.countP (·.error.isSome) + report.members.countP (·.error.isSome) +
        report.snapshots.countP SnapshotEntry.isFailed = 4) ∧
      (∃ reasons, ofDocument Model.placedModel.doc { placedArguments with definition := some "W" } =
        .error reasons) ∧
      ∃ reasons,
        ofDocument Model.placedModel.doc
          { input := "model.json", paths := ["definitions"], switches := [.origin] } =
        .error reasons := by
  refine ⟨?_, ?_, ?_⟩
  · have hreport : (ofDocument Model.placedModel.doc placedArguments).toOption.map Report.errors =
        some 4 := by
      decide +kernel
    obtain ⟨report, hreport, herrors⟩ := Option.map_eq_some_iff.mp hreport
    have hok : ofDocument Model.placedModel.doc placedArguments = .ok report :=
      Model.eq_ok_of_toOption hreport
    obtain ⟨⟨hlength, _⟩, _, hcount⟩ := (accounts_for_requests_and_errors _ _).1 report hok
    exact ⟨report, hok, hlength, hcount.symm.trans herrors⟩
  · exact (accounts_for_requests_and_errors _ _).2.mpr
      (.inl ⟨.inr rfl, "W", rfl, by decide +kernel⟩)
  · refine (accounts_for_requests_and_errors _ _).2.mpr
      (.inr ⟨[.reference ⟨[.key "definitions"]⟩], .member 3, [], ?_, ?_⟩)
    · decide +kernel
    · exact ⟨.outsideDefinitions 3, Model.eq_of_assertion? (by decide +kernel)⟩

end Report

end SchemaRefs
