import SchemaRefs.Proofs.CacheLaws
import SchemaRefs.Session.Inquiry

/-!
# Executions

`exec x s` is the outcome of a computation that starts with the cache `s`, together with the cache
that it leaves. The rules below open a computation one step at a time.

`Keeps I R E Q x` is the judgement that most statements about sessions use: `x` takes a cache with
`I` to one with `I`, the two are related by `R`, a result satisfies `Q` and a failure `E`. It is
closed under sequencing when `R` is reflexive and transitive (`Keeps.bind`), so that the judgement
for an inquiry follows from the one for the questions it asks (`Keeps.run`). `Alike S x y` says that
two computations come to the same outcome from caches that are related by `S`.
-/

namespace SchemaRefs

/-- The outcome of a computation that starts with a cache, and the cache that it leaves. -/
def CacheM.exec {α : Type} (x : CacheM α) (s : Cache) : Except ResolveError α × Cache :=
  (StateT.run (ExceptT.run x) s).run

namespace CacheM

variable {α β : Type} {s : Cache}

@[simp] theorem exec_pure (a : α) (s : Cache) : exec (pure a) s = (.ok a, s) := rfl

@[simp] theorem exec_throw (e : ResolveError) (s : Cache) :
    exec (throw e : CacheM α) s = (.error e, s) := rfl

@[simp] theorem exec_fail (e : ModelError) (s : Cache) :
    exec (fail e : CacheM α) s = (.error (.model e), s) := rfl

@[simp] theorem exec_assert (a : Assertion) (s : Cache) :
    exec (assert a : CacheM α) s = (.error (.assertion a), s) := rfl

theorem exec_bind (x : CacheM α) (f : α → CacheM β) (s : Cache) :
    exec (x >>= f) s =
      match exec x s with
      | (.ok a, t) => exec (f a) t
      | (.error e, t) => (.error e, t) := by
  simp only [exec, bind, ExceptT.bind, ExceptT.mk, ExceptT.run, StateT.bind, StateT.run, Id.run]
  cases h : x s with
  | mk r t => cases r <;> rfl

theorem exec_bind_ok {x : CacheM α} {t : Cache} {a : α} (h : exec x s = (.ok a, t))
    (f : α → CacheM β) : exec (x >>= f) s = exec (f a) t := by
  rw [exec_bind, h]

theorem exec_bind_error {x : CacheM α} {t : Cache} {e : ResolveError}
    (h : exec x s = (.error e, t)) (f : α → CacheM β) : exec (x >>= f) s = (.error e, t) := by
  rw [exec_bind, h]

/-- What follows a computation matters only for the results and caches that it comes to. -/
theorem exec_bind_congr {x : CacheM α} {f g : α → CacheM β}
    (h : ∀ a t, exec x s = (.ok a, t) → exec (f a) t = exec (g a) t) :
    exec (x >>= f) s = exec (x >>= g) s := by
  rw [exec_bind, exec_bind]
  rcases hx : exec x s with ⟨e | a, t⟩
  · rfl
  · exact h a t hx

theorem exec_tryCatch (x : CacheM α) (f : ResolveError → CacheM α) (s : Cache) :
    exec (tryCatch x f) s =
      match exec x s with
      | (.ok a, t) => (.ok a, t)
      | (.error e, t) => exec (f e) t := by
  simp only [exec, tryCatch, tryCatchThe, MonadExceptOf.tryCatch, ExceptT.tryCatch, ExceptT.mk,
    ExceptT.run, StateT.run, bind, StateT.bind, Id.run]
  cases h : x s with
  | mk r t => cases r <;> rfl

theorem exec_attempt (x : CacheM α) (s : Cache) :
    exec (attempt x) s = (.ok (exec x s).1, (exec x s).2) := by
  rw [attempt, exec_tryCatch, exec_bind]
  rcases exec x s with ⟨_ | a, t⟩ <;> rfl

@[simp] theorem exec_get (s : Cache) : exec (get : CacheM Cache) s = (.ok s, s) := rfl

@[simp] theorem exec_set (s t : Cache) : exec (set t : CacheM PUnit) s = (.ok ⟨⟩, t) := rfl

@[simp] theorem exec_modify (f : Cache → Cache) (s : Cache) :
    exec (modify f : CacheM PUnit) s = (.ok ⟨⟩, f s) := rfl

@[simp] theorem exec_count (f : Stats → Stats) (s : Cache) :
    exec (count f) s = (.ok (), s.count f) := rfl

@[simp] theorem exec_fact? (key : FactKey) (node : NodeId) (s : Cache) :
    exec (fact? key node) s = (.ok (s.get? key node), s) := rfl

theorem exec_ofExcept (x : Except ModelError α) (s : Cache) :
    exec (ofExcept x) s =
      match x with
      | .ok a => (.ok a, s)
      | .error e => (.error (.model e), s) := by
  cases x <;> rfl

theorem exec_setFact (key : FactKey) (owner node : NodeId) (value : key.Value) (s : Cache) :
    exec (setFact key owner node value) s =
      match s.set key owner node value with
      | .ok t => (.ok (), t)
      | .error a => (.error (.assertion a), s) := by
  rw [setFact, exec_bind_ok (exec_get s)]
  cases s.set key owner node value <;> rfl

theorem exec_holding (holder : NodeId) (x : CacheM α) (s : Cache) :
    exec (holding holder x) s =
      ((exec x (s.enter holder)).1, (exec x (s.enter holder)).2.leave holder) := by
  rw [holding, exec_bind_ok (exec_modify _ s), exec_bind_ok (exec_attempt x _),
    exec_bind_ok (exec_modify _ _)]
  cases (exec x (s.enter holder)).1 <;> rfl

theorem exec_getOrCompute (key : FactKey) (owner node : NodeId) (x : CacheM key.Value) (s : Cache) :
    exec (getOrCompute key owner node x) s =
      match s.get? key node with
      | some value => (.ok value, s)
      | none =>
        match exec x s with
        | (.error e, t) => (.error e, t)
        | (.ok value, t) =>
          if t.get? key node = some value then (.ok value, t)
          else
            match t.set key owner node value with
            | .ok u => (.ok value, u)
            | .error a => (.error (.assertion a), t) := by
  rw [getOrCompute, exec_bind_ok (exec_get s)]
  cases s.get? key node with
  | some value => rfl
  | none =>
    dsimp only
    rcases hx : exec x s with ⟨e | value, t⟩
    · rw [exec_bind_error hx]
    · rw [exec_bind_ok hx, exec_bind_ok (exec_get t)]
      dsimp only
      split
      · rfl
      · rw [exec_bind, exec_setFact]
        cases t.set key owner node value <;> rfl

/-! ## Invariants -/

/-- A result satisfies `Q`, a failure `E`. -/
def Ends (E : ResolveError → Prop) (Q : α → Prop) : Except ResolveError α → Prop
  | .ok a => Q a
  | .error e => E e

/-- From a cache with `I`, the computation leaves a cache with `I` that is related to it by `R`. Its
result satisfies `Q`, or its failure `E`. -/
def Keeps (I : Cache → Prop) (R : Cache → Cache → Prop) (E : ResolveError → Prop) (Q : α → Prop)
    (x : CacheM α) : Prop :=
  ∀ s, I s → I (exec x s).2 ∧ R s (exec x s).2 ∧ Ends E Q (exec x s).1

section

variable {I : Cache → Prop} {R : Cache → Cache → Prop} {E : ResolveError → Prop} {P : α → Prop}
  {Q : β → Prop}

theorem Keeps.pure (hR : ∀ s, R s s) {a : α} (h : P a) : Keeps I R E P (pure a : CacheM α) :=
  fun s hs => ⟨hs, hR s, h⟩

theorem Keeps.throw (hR : ∀ s, R s s) {e : ResolveError} (h : E e) :
    Keeps I R E P (throw e : CacheM α) :=
  fun s hs => ⟨hs, hR s, h⟩

theorem Keeps.bind (hT : ∀ a b c, R a b → R b c → R a c) {x : CacheM α} {f : α → CacheM β}
    (hx : Keeps I R E P x) (hf : ∀ a, P a → Keeps I R E Q (f a)) : Keeps I R E Q (x >>= f) := by
  intro s hs
  obtain ⟨hI, hRx, hend⟩ := hx s hs
  rw [exec_bind]
  rcases h : exec x s with ⟨e | a, t⟩
  · rw [h] at hI hRx hend
    exact ⟨hI, hRx, hend⟩
  · rw [h] at hI hRx hend
    obtain ⟨hI', hR', hend'⟩ := hf a hend t hI
    exact ⟨hI', hT _ _ _ hRx hR', hend'⟩

theorem Keeps.mono {E' : ResolveError → Prop} {P' : α → Prop} {x : CacheM α}
    (h : Keeps I R E P x) (hE : ∀ e, E e → E' e) (hP : ∀ a, P a → P' a) : Keeps I R E' P' x := by
  intro s hs
  obtain ⟨hI, hRx, hend⟩ := h s hs
  refine ⟨hI, hRx, ?_⟩
  cases hx : (exec x s).1 with
  | error e => rw [hx] at hend; exact hE e hend
  | ok a => rw [hx] at hend; exact hP a hend

theorem Keeps.frame {R' : Cache → Cache → Prop} {x : CacheM α} (h : Keeps I R E P x)
    (hR : ∀ s t, R s t → R' s t) : Keeps I R' E P x :=
  fun s hs => ⟨(h s hs).1, hR _ _ (h s hs).2.1, (h s hs).2.2⟩

theorem Keeps.attempt {E' : ResolveError → Prop} {x : CacheM α} (h : Keeps I R E P x) :
    Keeps I R E' (Ends E P) (attempt x) := by
  intro s hs
  rw [exec_attempt]
  exact h s hs

theorem Keeps.forM (hR : ∀ s, R s s) (hT : ∀ a b c, R a b → R b c → R a c)
    {f : α → CacheM PUnit} (l : List α) (hf : ∀ a ∈ l, Keeps I R E (fun _ => True) (f a)) :
    Keeps I R E (fun _ => True) (l.forM f) := by
  induction l with
  | nil => exact Keeps.pure hR trivial
  | cons a rest ih =>
    exact Keeps.bind hT (hf a List.mem_cons_self) fun _ _ =>
      ih fun b hb => hf b (List.mem_cons_of_mem _ hb)

end

/-! ## Two runs side by side -/

/-- From related caches the computations come to the same outcome and leave related caches. -/
def Alike (S : Cache → Cache → Prop) (x y : CacheM α) : Prop :=
  ∀ s t, S s t → (exec x s).1 = (exec y t).1 ∧ S (exec x s).2 (exec y t).2

section

variable {S : Cache → Cache → Prop}

theorem Alike.pure (a : α) : Alike S (pure a : CacheM α) (pure a) :=
  fun _ _ h => ⟨rfl, h⟩

theorem Alike.throw (e : ResolveError) : Alike S (throw e : CacheM α) (throw e) :=
  fun _ _ h => ⟨rfl, h⟩

theorem Alike.bind {x y : CacheM α} {f g : α → CacheM β} (hx : Alike S x y)
    (hf : ∀ a, Alike S (f a) (g a)) : Alike S (x >>= f) (y >>= g) := by
  intro s t h
  obtain ⟨hout, hst⟩ := hx s t h
  rw [exec_bind, exec_bind]
  rcases hs : exec x s with ⟨rs, s'⟩
  rcases ht : exec y t with ⟨rt, t'⟩
  rw [hs, ht] at hout hst
  cases hout
  cases rs with
  | error e => exact ⟨rfl, hst⟩
  | ok a => exact hf a s' t' hst

theorem Alike.attempt {x y : CacheM α} (hx : Alike S x y) : Alike S (attempt x) (attempt y) := by
  intro s t h
  rw [exec_attempt, exec_attempt]
  exact ⟨congrArg Except.ok (hx s t h).1, (hx s t h).2⟩

theorem Alike.forM {f : α → CacheM PUnit} (l : List α) (hf : ∀ a ∈ l, Alike S (f a) (f a)) :
    Alike S (l.forM f) (l.forM f) := by
  induction l with
  | nil => exact Alike.pure _
  | cons a rest ih =>
    exact Alike.bind (hf a List.mem_cons_self) fun _ => ih fun b hb =>
      hf b (List.mem_cons_of_mem _ hb)

end

end CacheM

/-! ## Contracts of inquiries -/

/-- Which questions an inquiry may ask, which answers it may rely on, and how it may fail. -/
structure Contract where
  path : Path → Prop
  node : NodeId → Prop
  resolution : Path → Resolution → Prop
  type : NodeId → NodeId → Prop
  error : ResolveError → Prop

/-- An inquiry that may ask and fail as it likes, and gets resolutions with a property. -/
def Contract.answering (resolution : Resolution → Prop) : Contract where
  path := fun _ => True
  node := fun _ => True
  resolution := fun _ r => resolution r
  type := fun _ _ => True
  error := fun _ => True

namespace Inquiry

variable {α β : Type} {c : Contract}

/-- The inquiry respects the contract, and every answer that it can come to satisfies `post`. -/
def Meets (c : Contract) (post : α → Prop) : Inquiry α → Prop
  | .answer value => post value
  | .failure error => c.error error
  | .inspect path next => c.path path ∧ ∀ r, c.resolution path r → (next r).Meets c post
  | .effectiveType node next => c.node node ∧ ∀ t, c.type node t → (next t).Meets c post

theorem Meets.bind {x : Inquiry α} {f : α → Inquiry β} {mid : α → Prop} {post : β → Prop}
    (hx : x.Meets c mid) (hf : ∀ a, mid a → (f a).Meets c post) : (x >>= f).Meets c post := by
  induction x with
  | answer value => exact hf value hx
  | failure error => exact hx
  | inspect path next ih => exact ⟨hx.1, fun r hr => ih r (hx.2 r hr)⟩
  | effectiveType node next ih => exact ⟨hx.1, fun t ht => ih t (hx.2 t ht)⟩

/-- What an inquiry goes on with meets the contract for every answer that it can come to. -/
theorem Meets.of_bind {x : Inquiry α} {f : α → Inquiry β} {post : β → Prop}
    (h : (x >>= f).Meets c post) :
    x.Meets c fun a => (f a).Meets c post := by
  induction x with
  | answer value => exact h
  | failure error => exact h
  | inspect path next ih => exact ⟨h.1, fun r hr => ih r (h.2 r hr)⟩
  | effectiveType node next ih => exact ⟨h.1, fun t ht => ih t (h.2 t ht)⟩

theorem Meets.mono {x : Inquiry α} {c' : Contract} {post post' : α → Prop} (hx : x.Meets c post)
    (hpath : ∀ p, c.path p → c'.path p) (hnode : ∀ n, c.node n → c'.node n)
    (hres : ∀ p r, c.path p → c'.resolution p r → c.resolution p r)
    (htype : ∀ n t, c.node n → c'.type n t → c.type n t)
    (herr : ∀ e, c.error e → c'.error e) (hpost : ∀ a, post a → post' a) : x.Meets c' post' := by
  induction x with
  | answer value => exact hpost value hx
  | failure error => exact herr error hx
  | inspect path next ih =>
    exact ⟨hpath _ hx.1, fun r hr => ih r (hx.2 r (hres _ _ hx.1 hr))⟩
  | effectiveType node next ih =>
    exact ⟨hnode _ hx.1, fun t ht => ih t (hx.2 t (htype _ _ hx.1 ht))⟩

theorem Meets.weaken {x : Inquiry α} {post post' : α → Prop} (hx : x.Meets c post)
    (hpost : ∀ a, post a → post' a) : x.Meets c post' :=
  hx.mono (fun _ h => h) (fun _ h => h) (fun _ _ _ h => h) (fun _ _ _ h => h) (fun _ h => h) hpost

/-- What holds under a contract holds together with what follows from its answers alone. -/
theorem Meets.both {x : Inquiry α} {c' : Contract} {post post' : α → Prop} (hx : x.Meets c post)
    (hx' : x.Meets c' post') (hres : ∀ path r, c.resolution path r → c'.resolution path r)
    (htype : ∀ node type, c.type node type → c'.type node type) :
    x.Meets c fun a => post a ∧ post' a := by
  induction x with
  | answer value => exact ⟨hx, hx'⟩
  | failure error => exact hx
  | inspect path next ih =>
    exact ⟨hx.1, fun r hr => ih r (hx.2 r hr) (hx'.2 r (hres path r hr))⟩
  | effectiveType node next ih =>
    exact ⟨hx.1, fun type ht => ih type (hx.2 type ht) (hx'.2 type (htype node type ht))⟩

theorem meets_answering {resolution : Resolution → Prop} (x : Inquiry α) :
    x.Meets (.answering resolution) fun _ => True := by
  induction x with
  | answer value => trivial
  | failure error => trivial
  | inspect path next ih => exact ⟨trivial, fun r _ => ih r⟩
  | effectiveType node next ih => exact ⟨trivial, fun type _ => ih type⟩

end Inquiry

namespace CacheM

section

variable {α β : Type} {k : Lookups} {s t : Cache}

/-- One inquiry is asked after the other. -/
theorem exec_run_bind (x : Inquiry α) (f : α → Inquiry β) (s : Cache) :
    exec ((x >>= f).run k) s = exec (x.run k >>= fun a => (f a).run k) s := by
  induction x generalizing s with
  | answer value => rfl
  | failure error => rfl
  | inspect path next ih =>
    change exec (k.inspect path >>= fun r => (next r >>= f).run k) s =
      exec ((k.inspect path >>= fun r => (next r).run k) >>= fun a => (f a).run k) s
    rcases hq : exec (k.inspect path) s with ⟨e | r, t⟩
    · rw [exec_bind_error hq, exec_bind_error (exec_bind_error hq _)]
    · rw [exec_bind_ok hq, ih, exec_bind, exec_bind, exec_bind_ok hq]
  | effectiveType node next ih =>
    change exec (k.effectiveType node >>= fun type => (next type >>= f).run k) s =
      exec ((k.effectiveType node >>= fun type => (next type).run k) >>= fun a => (f a).run k) s
    rcases hq : exec (k.effectiveType node) s with ⟨e | type, t⟩
    · rw [exec_bind_error hq, exec_bind_error (exec_bind_error hq _)]
    · rw [exec_bind_ok hq, ih, exec_bind, exec_bind, exec_bind_ok hq]

theorem exec_run_bind_ok {x : Inquiry α} {a : α} (h : exec (x.run k) s = (.ok a, t))
    (f : α → Inquiry β) :
    exec ((x >>= f).run k) s = exec ((f a).run k) t :=
  (exec_run_bind x f s).trans (exec_bind_ok h _)

theorem exec_run_bind_error {x : Inquiry α} {e : ResolveError}
    (h : exec (x.run k) s = (.error e, t)) (f : α → Inquiry β) :
    exec ((x >>= f).run k) s = (.error e, t) :=
  (exec_run_bind x f s).trans (exec_bind_error h _)

end

variable {α : Type} {I : Cache → Prop} {R : Cache → Cache → Prop}

/-- What the answers to its questions keep, an inquiry keeps. -/
theorem Keeps.run {k : Lookups} {c : Contract} {post : α → Prop} {inquiry : Inquiry α}
    (hR : ∀ s, R s s) (hT : ∀ a b c, R a b → R b c → R a c)
    (hpath : ∀ p, c.path p → Keeps I R c.error (c.resolution p) (k.inspect p))
    (hnode : ∀ n, c.node n → Keeps I R c.error (c.type n) (k.effectiveType n))
    (hm : inquiry.Meets c post) : Keeps I R c.error post (inquiry.run k) := by
  induction inquiry with
  | answer value => exact Keeps.pure hR hm
  | failure error => exact Keeps.throw hR hm
  | inspect path next ih =>
    exact Keeps.bind hT (hpath path hm.1) fun r hr => ih r (hm.2 r hr)
  | effectiveType node next ih =>
    exact Keeps.bind hT (hnode node hm.1) fun t ht => ih t (hm.2 t ht)

end CacheM

end SchemaRefs
