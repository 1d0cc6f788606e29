import Mathlib.Data.List.Basic

/-! Computations that keep a log and may stop with an error. What was logged before the
error stays logged, so a statement about every entry also covers the runs that fail. -/

structure Logged (κ ε α : Type) where
  log : List κ
  result : Except ε α

namespace Logged

variable {κ ε α β : Type}

protected def bind (x : Logged κ ε α) (f : α → Logged κ ε β) : Logged κ ε β :=
  match x.result with
  | .ok a => ⟨x.log ++ (f a).log,(f a).result⟩
  | .error e => ⟨x.log,.error e⟩

instance : Monad (Logged κ ε) where
  pure a := ⟨[],.ok a⟩
  bind := Logged.bind

def note (entry : κ) : Logged κ ε Unit := ⟨[entry],.ok ()⟩

def fail (e : ε) : Logged κ ε α := ⟨[],.error e⟩

/-- A computation that logs nothing. -/
def lift (r : Except ε α) : Logged κ ε α := ⟨[],r⟩

@[simp] theorem pure_log (a : α) : (pure a : Logged κ ε α).log = [] := rfl
@[simp] theorem pure_result (a : α) : (pure a : Logged κ ε α).result = .ok a := rfl
@[simp] theorem fail_log (e : ε) : (fail e : Logged κ ε α).log = [] := rfl
@[simp] theorem fail_result (e : ε) : (fail e : Logged κ ε α).result = .error e := rfl
@[simp] theorem lift_log (r : Except ε α) : (lift r : Logged κ ε α).log = [] := rfl
@[simp] theorem lift_result (r : Except ε α) : (lift r : Logged κ ε α).result = r := rfl
@[simp] theorem note_log (k : κ) : (note k : Logged κ ε Unit).log = [k] := rfl
@[simp] theorem note_result (k : κ) : (note k : Logged κ ε Unit).result = .ok () := rfl

@[simp] theorem pure_bind (a : α) (f : α → Logged κ ε β) : pure a >>= f = f a := rfl

@[simp] theorem fail_bind (e : ε) (f : α → Logged κ ε β) :
    (fail e : Logged κ ε α) >>= f = fail e := rfl

@[simp] theorem note_bind_log (k : κ) (f : Unit → Logged κ ε β) :
    (note k >>= f).log = k :: (f ()).log := rfl

@[simp] theorem note_bind_result (k : κ) (f : Unit → Logged κ ε β) :
    (note k >>= f).result = (f ()).result := rfl

variable {x : Logged κ ε α} {f : α → Logged κ ε β} {a : α} {b : β}

theorem bind_of_ok (ran : x.result = .ok a) :
    x >>= f = ⟨x.log ++ (f a).log,(f a).result⟩ := by
  change Logged.bind x f = _
  simp [Logged.bind,ran]

theorem bind_of_error {e : ε} (ran : x.result = .error e) : x >>= f = ⟨x.log,.error e⟩ := by
  change Logged.bind x f = _
  simp [Logged.bind,ran]

/-- Every logged entry has the property. -/
def All (p : κ → Prop) (x : Logged κ ε α) : Prop := ∀ k ∈ x.log, p k

variable {p : κ → Prop}

@[simp] theorem all_pure (a : α) : (pure a : Logged κ ε α).All p := by simp [All]
@[simp] theorem all_fail (e : ε) : (fail e : Logged κ ε α).All p := by simp [All]
@[simp] theorem all_lift (r : Except ε α) : (lift r : Logged κ ε α).All p := by simp [All]
@[simp] theorem all_note (k : κ) : (note k : Logged κ ε Unit).All p ↔ p k := by simp [All]

theorem all_bind : (x >>= f).All p ↔ x.All p ∧ ∀ a, x.result = .ok a → (f a).All p := by
  rcases ran : x.result with e | a
  · simp [All,bind_of_error ran]
  · simp [All,bind_of_ok ran,or_imp,forall_and]

@[simp] theorem all_note_bind (k : κ) (f : Unit → Logged κ ε β) :
    (note k >>= f).All p ↔ p k ∧ (f ()).All p := by
  simp [All]

theorem All.bind (first : x.All p) (rest : ∀ a, x.result = .ok a → (f a).All p) :
    (x >>= f).All p := all_bind.mpr ⟨first,rest⟩

theorem All.mono {q : κ → Prop} (held : x.All p) (weaker : ∀ k, p k → q k) : x.All q :=
  fun k member => weaker k (held k member)

/-- Every result has the property. -/
def Returns (q : α → Prop) (x : Logged κ ε α) : Prop := ∀ a, x.result = .ok a → q a

variable {q : α → Prop} {r : β → Prop}

@[simp] theorem returns_pure (a : α) : (pure a : Logged κ ε α).Returns q ↔ q a := by
  simp [Returns]

@[simp] theorem returns_fail (e : ε) : (fail e : Logged κ ε α).Returns q := by simp [Returns]

theorem Returns.bind (first : x.Returns q) (rest : ∀ a, q a → (f a).Returns r) :
    (x >>= f).Returns r := by
  intro b returned
  rcases ran : x.result with e | a
  · simp [bind_of_error ran] at returned
  · rw [bind_of_ok ran] at returned
    exact rest a (first a ran) b returned

/-- The computation does not stop with the error. -/
def Avoids (x : Logged κ ε α) (e : ε) : Prop := x.result ≠ .error e

variable {e : ε}

theorem Avoids.bind (first : x.Avoids e) (rest : ∀ a, (f a).Avoids e) : (x >>= f).Avoids e := by
  rcases ran : x.result with e' | a
  · intro stops
    rw [bind_of_error ran] at stops
    have same : e' = e := Except.error.inj stops
    exact first (ran.trans (congrArg Except.error same))
  · rw [Avoids,bind_of_ok ran]
    exact rest a

/-- Whatever the first part returns. -/
theorem Returns.after (rest : ∀ a, (f a).Returns r) : (x >>= f).Returns r :=
  Returns.bind (q := fun _ => True) (fun _ _ => trivial) fun a _ => rest a

end Logged
