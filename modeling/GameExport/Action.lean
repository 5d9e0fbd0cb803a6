/-! # Actions

An action changes a state and may fail. A failed action keeps the changes that it made before it
failed, because files that have been written stay written.
-/

namespace GameExport

/-- A computation on a state that ends with a value or an error, and with a state in any case. -/
abbrev Action (σ ε α : Type) := ExceptT ε (StateM σ) α

namespace Action

variable {σ τ ε δ α β : Type}

/-- The outcome of an action and the state after it. -/
def outcome (a : Action σ ε α) (s : σ) : Except ε α × σ := StateT.run (ExceptT.run a) s

/-- The action whose outcome and final state are given by a function. -/
def of (f : σ → Except ε α × σ) : Action σ ε α := ExceptT.mk (StateT.mk fun s => f s)

/-- The action on a part of a larger state. -/
def zoom (get : τ → σ) (set : σ → τ → τ) (a : Action σ ε α) : Action τ ε α :=
  of fun t => ((a.outcome (get t)).1, set (a.outcome (get t)).2 t)

/-- The action with its errors put in other words. -/
def mapError (f : ε → δ) (a : Action σ ε α) : Action σ δ α :=
  of fun s => ((a.outcome s).1.mapError f, (a.outcome s).2)

def ask (f : σ → α) : Action σ ε α := of fun s => (.ok (f s), s)

@[simp] theorem outcome_of (f : σ → Except ε α × σ) (s : σ) : (of f).outcome s = f s := rfl

@[simp] theorem outcome_pure (a : α) (s : σ) :
    (pure a : Action σ ε α).outcome s = (.ok a, s) := rfl

@[simp] theorem outcome_throw (e : ε) (s : σ) :
    (throw e : Action σ ε α).outcome s = (.error e, s) := rfl

/-- The second of two actions runs where the first one ends, unless that failed. -/
theorem outcome_bind (a : Action σ ε α) (f : α → Action σ ε β) (s : σ) :
    (a >>= f).outcome s =
      match a.outcome s with
      | (.ok x, t) => (f x).outcome t
      | (.error e, t) => (.error e, t) := by
  show StateT.run (ExceptT.run (a >>= f)) s = _
  rw [ExceptT.run_bind, StateT.run_bind]
  unfold outcome
  rcases h : StateT.run (ExceptT.run a) s with ⟨r, t⟩
  cases r <;> rfl

@[simp] theorem outcome_zoom (get : τ → σ) (set : σ → τ → τ) (a : Action σ ε α) (t : τ) :
    (a.zoom get set).outcome t = ((a.outcome (get t)).1, set (a.outcome (get t)).2 t) := rfl

@[simp] theorem outcome_mapError (f : ε → δ) (a : Action σ ε α) (s : σ) :
    (a.mapError f).outcome s = ((a.outcome s).1.mapError f, (a.outcome s).2) := rfl

@[simp] theorem outcome_ask (f : σ → α) (s : σ) :
    (ask f : Action σ ε α).outcome s = (.ok (f s), s) := rfl

end Action

end GameExport
