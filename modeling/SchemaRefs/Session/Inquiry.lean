import SchemaRefs.Cache.Basic

/-!
# Inquiries

The rules by which a name gets its meaning are the same whatever a session remembers. They are
written as inquiries: a computation that reads the document, may ask what stands at another path and
what the effective type of a node is, and goes on with the answer. A session answers such questions
from its cache where it can (`Inquiry.run`).
-/

namespace SchemaRefs

/-- A computation that may ask questions about the document. -/
inductive Inquiry (α : Type) : Type where
  | answer (value : α)
  | failure (error : ResolveError)
  /-- What stands at a path? -/
  | inspect (path : Path) (next : Resolution → Inquiry α)
  /-- What is the effective type of a node? -/
  | effectiveType (node : NodeId) (next : NodeId → Inquiry α)

namespace Inquiry

variable {α β γ : Type}

/-- One inquiry after the other. -/
def bind : Inquiry α → (α → Inquiry β) → Inquiry β
  | .answer value, f => f value
  | .failure error, _ => .failure error
  | .inspect path next, f => .inspect path fun resolution => (next resolution).bind f
  | .effectiveType node next, f => .effectiveType node fun type => (next type).bind f

instance : Monad Inquiry where
  pure := .answer
  bind := bind

/-- Fails because of the document. -/
def fail (error : ModelError) : Inquiry α :=
  .failure (.model error)

/-- Fails because of the state of the session. -/
def assert (cause : Assertion) : Inquiry α :=
  .failure (.assertion cause)

/-- The outcome of a computation that only reads the document. -/
def ofExcept : Except ModelError α → Inquiry α
  | .ok value => .answer value
  | .error error => fail error

/-- The resolution of what stands at a path. -/
def resolutionAt (path : Path) : Inquiry Resolution :=
  .inspect path .answer

/-- The effective type of a node. -/
def typeOf (node : NodeId) : Inquiry NodeId :=
  .effectiveType node .answer

@[simp] theorem answer_bind (value : α) (f : α → Inquiry β) : (.answer value >>= f) = f value := rfl

@[simp] theorem pure_eq (value : α) : (pure value : Inquiry α) = .answer value := rfl

@[simp] theorem failure_bind (error : ResolveError) (f : α → Inquiry β) :
    (.failure error >>= f) = .failure error := rfl

@[simp] theorem inspect_bind (path : Path) (next : Resolution → Inquiry α) (f : α → Inquiry β) :
    (.inspect path next >>= f) = .inspect path fun resolution => next resolution >>= f := rfl

@[simp] theorem effectiveType_bind (node : NodeId) (next : NodeId → Inquiry α) (f : α → Inquiry β) :
    (.effectiveType node next >>= f) = .effectiveType node fun type => next type >>= f := rfl

end Inquiry

/-- Answers to the questions of inquiries. -/
structure Lookups where
  /-- The resolution of the reference at a path. -/
  inspect : Path → CacheM Resolution
  /-- The effective type of a node. -/
  effectiveType : NodeId → CacheM NodeId

/-- An inquiry, with its questions answered by a session. -/
def Inquiry.run {α : Type} (k : Lookups) : Inquiry α → CacheM α
  | .answer value => return value
  | .failure error => throw error
  | .inspect path next => k.inspect path >>= fun resolution => (next resolution).run k
  | .effectiveType node next => k.effectiveType node >>= fun type => (next type).run k

end SchemaRefs
