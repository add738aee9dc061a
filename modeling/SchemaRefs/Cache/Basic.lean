import SchemaRefs.Cache.Fact
import Std.Data.TreeMap

/-!
# The cache of a session

The cache keeps an entry of facts per node. Every entry is kept on behalf of the definition that
owns the node, and for each definition the cache remembers the order in which its entries were made.
All entries of a definition can be dropped at once; nothing else is ever removed but the mark of a
failed walk. Beside the entries stand the holders of the references that are being resolved at the
moment.
-/

namespace SchemaRefs

/-- How often the session has computed something. -/
structure Stats where
  topologyBuilds : Nat := 0
  resolutions : Nat := 0
  effectiveTypeWalks : Nat := 0
  originComputations : Nat := 0
  droppedEntries : Nat := 0
deriving Repr, DecidableEq, Inhabited

/-- Entries by node, and the nodes of each owner in the order of their first fact. -/
structure Cache where
  entries : Std.TreeMap NodeId Entry := ∅
  owned : Std.TreeMap NodeId (List NodeId) := ∅
  stats : Stats := {}
  /-- The holders of the references that are being resolved, the latest one first. -/
  resolving : List NodeId := []

namespace Cache

/-- The cache of a new session. -/
def empty : Cache := {}

variable (cache : Cache)

/-- The entry of a node. -/
def entryAt? (node : NodeId) : Option Entry :=
  cache.entries[node]?

/-- A fact about a node. -/
def get? (key : FactKey) (node : NodeId) : Option key.Value :=
  (cache.entryAt? node).bind fun entry => entry.get? key

/-- The fact is known. -/
def contains (key : FactKey) (node : NodeId) : Bool :=
  (cache.get? key node).isSome

/-- The definition on whose behalf a node has an entry. -/
def owner? (node : NodeId) : Option NodeId :=
  (cache.entryAt? node).map Entry.owner

/-- The nodes with entries on behalf of a definition, in the order in which they were made. -/
def ownedNodes (owner : NodeId) : List NodeId :=
  cache.owned[owner]?.getD []

/-- The number of entries. -/
def size : Nat :=
  cache.entries.size

/-- The cache with a counter changed. -/
def count (f : Stats → Stats) : Cache :=
  { cache with stats := f cache.stats }

/-- The cache in which `node` has an entry without facts on behalf of `owner`. -/
def addEntry (owner node : NodeId) : Cache :=
  { cache with
    entries := cache.entries.insert node { owner }
    owned := cache.owned.insert owner (cache.ownedNodes owner ++ [node]) }

/-- The cache with the entry of a node replaced. -/
def putEntry (node : NodeId) (entry : Entry) : Cache :=
  { cache with entries := cache.entries.insert node entry }

/-- Stores a fact on behalf of a definition. It is an error if the node belongs to another
definition, or if the fact would change. -/
def set (key : FactKey) (owner node : NodeId) (value : key.Value) : Except Assertion Cache :=
  match cache.entryAt? node with
  | none =>
    .ok ((cache.addEntry owner node).putEntry node (({ owner } : Entry).set key (some value)))
  | some entry =>
    if entry.owner ≠ owner then .error (.foreignEntry node entry.owner owner)
    else
      match entry.get? key with
      | some old =>
        if key.mayReplace old value then .ok (cache.putEntry node (entry.set key (some value)))
        else .error (.factChange key.name node (key.valueText old) (key.valueText value))
      | none => .ok (cache.putEntry node (entry.set key (some value)))

/-- Removes one fact. The entry stays. -/
def clear (key : FactKey) (node : NodeId) : Cache :=
  match cache.entryAt? node with
  | none => cache
  | some entry => cache.putEntry node (entry.set key none)

/-- Drops all entries of a definition; also the number of entries removed. -/
def dropAll (owner : NodeId) : Cache × Nat :=
  let entries :=
    (cache.ownedNodes owner).foldl (fun entries node => entries.erase node) cache.entries
  let removed := cache.entries.size - entries.size
  ({ cache with
     entries
     owned := cache.owned.erase owner
     stats := { cache.stats with droppedEntries := cache.stats.droppedEntries + removed } },
    removed)

/-- The reference of a holder is being resolved. -/
def enter (holder : NodeId) : Cache :=
  { cache with resolving := holder :: cache.resolving }

/-- The reference of a holder is no longer being resolved. -/
def leave (holder : NodeId) : Cache :=
  { cache with resolving := cache.resolving.erase holder }

end Cache

/-- Computations that read and change a cache, which stays as they left it when they fail. -/
abbrev CacheM := ExceptT ResolveError (StateM Cache)

namespace CacheM

/-- Fails because of the document. -/
def fail {α : Type} (error : ModelError) : CacheM α :=
  throw (.model error)

/-- Fails because of the state of the session. -/
def assert {α : Type} (cause : Assertion) : CacheM α :=
  throw (.assertion cause)

/-- The outcome of a computation that only reads the document. -/
def ofExcept {α : Type} : Except ModelError α → CacheM α
  | .ok value => return value
  | .error error => fail error

/-- The outcome of a computation as a value; what it did to the cache stays done. -/
def attempt {α : Type} (action : CacheM α) : CacheM (Except ResolveError α) :=
  tryCatch (do return .ok (← action)) fun error => return .error error

/-- A fact about a node. -/
def fact? (key : FactKey) (node : NodeId) : CacheM (Option key.Value) := do
  return (← get).get? key node

/-- Changes a counter. -/
def count (f : Stats → Stats) : CacheM Unit :=
  modify (·.count f)

/-- Stores a fact. A failure leaves the cache as it was. -/
def setFact (key : FactKey) (owner node : NodeId) (value : key.Value) : CacheM Unit := do
  match (← get).set key owner node value with
  | .ok cache => MonadState.set cache
  | .error cause => assert cause

/-- A computation during which the reference of a holder is being resolved, however it ends. -/
def holding {α : Type} (holder : NodeId) (action : CacheM α) : CacheM α := do
  modify (·.enter holder)
  let result ← attempt action
  modify (·.leave holder)
  match result with
  | .ok value => return value
  | .error error => throw error

/-- The stored fact, or else the computed one, which is stored. -/
def getOrCompute (key : FactKey) (owner node : NodeId) (compute : CacheM key.Value) :
    CacheM key.Value := do
  match (← get).get? key node with
  | some value => return value
  | none =>
    let value ← compute
    -- the computation may have stored the same fact on the way
    if (← get).get? key node = some value then return value
    setFact key owner node value
    return value

end CacheM

end SchemaRefs
