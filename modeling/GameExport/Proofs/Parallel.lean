import GameExport.Proofs.Action

/-! # Two runs side by side

Two actions run on related states. If they take related steps they end alike, in related states:
either both with related values or both with related errors. Each way to put actions together
keeps them side by side.
-/

namespace GameExport.Action

variable {σ σ' τ τ' ε ε' δ δ' α α' β β' : Type}

/-- Both are values that are related, or both are errors that are related. -/
inductive EndAlike (E : ε → ε' → Prop) (V : α → α' → Prop) : Except ε α → Except ε' α' → Prop
  | ok {x : α} {y : α'} (h : V x y) : EndAlike E V (.ok x) (.ok y)
  | error {e : ε} {f : ε'} (h : E e f) : EndAlike E V (.error e) (.error f)

/-- Both succeed or both fail. -/
theorem EndAlike.isOk_eq {E : ε → ε' → Prop} {V : α → α' → Prop} {r : Except ε α}
    {r' : Except ε' α'} (h : EndAlike E V r r') : r.isOk = r'.isOk := by
  cases h <;> rfl

/-- From states related in one way two actions end alike, in states related in another way. -/
def Parallel (P Q : σ → σ' → Prop) (E : ε → ε' → Prop) (V : α → α' → Prop) (a : Action σ ε α)
    (b : Action σ' ε' α') : Prop :=
  ∀ s s', P s s' →
    Q (a.outcome s).2 (b.outcome s').2 ∧ EndAlike E V (a.outcome s).1 (b.outcome s').1

namespace Parallel

variable {P Q T : σ → σ' → Prop} {E : ε → ε' → Prop} {V : α → α' → Prop} {W : β → β' → Prop}

theorem mono {P' Q' : σ → σ' → Prop} {E' : ε → ε' → Prop} {V' : α → α' → Prop}
    {a : Action σ ε α} {b : Action σ' ε' α'} (h : Parallel P Q E V a b)
    (hP : ∀ s s', P' s s' → P s s') (hQ : ∀ s s', Q s s' → Q' s s')
    (hE : ∀ e f, E e f → E' e f) (hV : ∀ x y, V x y → V' x y) : Parallel P' Q' E' V' a b := by
  intro s s' hs
  obtain ⟨hstates, hresults⟩ := h s s' (hP s s' hs)
  refine ⟨hQ _ _ hstates, ?_⟩
  generalize (a.outcome s).1 = x at hresults
  generalize (b.outcome s').1 = y at hresults
  cases hresults with
  | ok hx => exact .ok (hV _ _ hx)
  | error he => exact .error (hE _ _ he)

theorem weaken {a : Action σ ε α} {b : Action σ' ε' α'} (h : Parallel P Q E V a b)
    (hQ : ∀ s s', Q s s' → T s s') : Parallel P T E V a b :=
  h.mono (fun _ _ => id) hQ (fun _ _ => id) fun _ _ => id

/-- What the first action keeps may be relied on all along. -/
theorem keeping {I : σ → Prop} {a : Action σ ε α} {b : Action σ' ε' α'}
    (h : Parallel P Q E V a b) (ha : a.Moves fun s t => I s → I t) :
    Parallel (fun s s' => P s s' ∧ I s) (fun s s' => Q s s' ∧ I s) E V a b := by
  rintro s s' ⟨hs, hI⟩
  obtain ⟨hstates, hresults⟩ := h s s' hs
  exact ⟨⟨hstates, ha s hI⟩, hresults⟩

theorem pure {x : α} {y : α'} (h : V x y) : Parallel P P E V (Pure.pure x) (Pure.pure y) :=
  fun _ _ hs => ⟨hs, .ok h⟩

theorem throw {e : ε} {f : ε'} (h : E e f) :
    Parallel P P E V (MonadExcept.throw e) (MonadExcept.throw f) :=
  fun _ _ hs => ⟨hs, .error h⟩

/-- What is looked at decides how both go on. -/
theorem ask_bind {x : σ → α} {y : σ' → α'} {f : α → Action σ ε β} {g : α' → Action σ' ε' β'}
    (hask : ∀ s s', P s s' → V (x s) (y s'))
    (h : ∀ v w, V v w → Parallel P Q E W (f v) (g w)) :
    Parallel P Q E W (Action.ask x >>= f) (Action.ask y >>= g) := by
  intro s s' hs
  rw [outcome_ask_bind, outcome_ask_bind]
  exact h _ _ (hask s s' hs) s s' hs

/-- The rest may rely on the states being those in which the first two actions succeed. -/
theorem bind_of_ok {a : Action σ ε α} {b : Action σ' ε' α'} {f : α → Action σ ε β}
    {g : α' → Action σ' ε' β'} (hfirst : Parallel P Q E V a b)
    (hfail : ∀ s s', Q s s' → T s s')
    (hrest : ∀ x y, V x y → Parallel
      (fun t t' => Q t t' ∧ (∃ s, a.outcome s = (.ok x, t)) ∧ ∃ s', b.outcome s' = (.ok y, t'))
      T E W (f x) (g y)) :
    Parallel P T E W (a >>= f) (b >>= g) := by
  intro s s' hs
  obtain ⟨hstates, hresults⟩ := hfirst s s' hs
  rw [outcome_bind, outcome_bind]
  generalize ha : a.outcome s = r at hstates hresults
  generalize hb : b.outcome s' = r' at hstates hresults
  obtain ⟨r, t⟩ := r
  obtain ⟨r', t'⟩ := r'
  cases hresults with
  | ok hx => exact hrest _ _ hx t t' ⟨hstates, ⟨s, ha⟩, s', hb⟩
  | error he => exact ⟨hfail t t' hstates, .error he⟩

/-- A failure of the first two actions is the failure of both. -/
theorem bind {a : Action σ ε α} {b : Action σ' ε' α'} {f : α → Action σ ε β}
    {g : α' → Action σ' ε' β'} (hfirst : Parallel P Q E V a b)
    (hfail : ∀ s s', Q s s' → T s s')
    (hrest : ∀ x y, V x y → Parallel Q T E W (f x) (g y)) :
    Parallel P T E W (a >>= f) (b >>= g) :=
  hfirst.bind_of_ok hfail fun x y hx t t' h => hrest x y hx t t' h.1

/-- Two pairs of steps are parallel if the steps are. -/
theorem andThen {a : Action σ ε α} {b : Action σ' ε' α'} {f : α → Action σ ε β}
    {g : α' → Action σ' ε' β'} (hfirst : Parallel P Q E V a b)
    (hrest : ∀ x y, V x y → Parallel Q Q E W (f x) (g y)) :
    Parallel P Q E W (a >>= f) (b >>= g) :=
  hfirst.bind (fun _ _ => id) hrest

/-- Both go on with the same value. -/
theorem andThen_eq {a : Action σ ε α} {b : Action σ' ε' α} {f : α → Action σ ε β}
    {g : α → Action σ' ε' β'} (hfirst : Parallel P Q E Eq a b)
    (hrest : ∀ x, Parallel Q Q E W (f x) (g x)) :
    Parallel P Q E W (a >>= f) (b >>= g) :=
  hfirst.andThen fun x _ hx => hx ▸ hrest x

/-- Related failures are handled alike. -/
theorem tryCatch {a : Action σ ε α} {b : Action σ' ε' α'} {f : ε → Action σ ε α}
    {g : ε' → Action σ' ε' α'} (hfirst : Parallel P Q E V a b)
    (hhandle : ∀ e e', E e e' → Parallel Q Q E V (f e) (g e')) :
    Parallel P Q E V (MonadExcept.tryCatch a f) (MonadExcept.tryCatch b g) := by
  intro s s' hs
  obtain ⟨hstates, hresults⟩ := hfirst s s' hs
  rw [outcome_tryCatch, outcome_tryCatch]
  generalize a.outcome s = r at hstates hresults
  generalize b.outcome s' = r' at hstates hresults
  obtain ⟨r, t⟩ := r
  obtain ⟨r', t'⟩ := r'
  cases hresults with
  | ok hx => exact ⟨hstates, .ok hx⟩
  | error he => exact hhandle _ _ he t t' hstates

theorem mapError {D : δ → δ' → Prop} {a : Action σ ε α} {b : Action σ' ε' α'} {f : ε → δ}
    {g : ε' → δ'} (h : Parallel P Q E V a b) (hmap : ∀ e e', E e e' → D (f e) (g e')) :
    Parallel P Q D V (a.mapError f) (b.mapError g) := by
  intro s s' hs
  obtain ⟨hstates, hresults⟩ := h s s' hs
  rw [outcome_mapError, outcome_mapError]
  refine ⟨hstates, ?_⟩
  generalize (a.outcome s).1 = x at hresults
  generalize (b.outcome s').1 = y at hresults
  cases hresults with
  | ok hx => exact .ok hx
  | error he => exact .error (hmap _ _ he)

/-- Parts of related states that are worked on alike leave the states related. -/
theorem zoom {P' Q' : τ → τ' → Prop} {get : τ → σ} {set : σ → τ → τ} {get' : τ' → σ'}
    {set' : σ' → τ' → τ'} {a : Action σ ε α} {b : Action σ' ε' α'} (h : Parallel P Q E V a b)
    (hget : ∀ t t', P' t t' → P (get t) (get' t'))
    (hset : ∀ t t' s s', P' t t' → Q s s' → Q' (set s t) (set' s' t')) :
    Parallel P' Q' E V (a.zoom get set) (b.zoom get' set') := by
  intro t t' ht
  obtain ⟨hstates, hresults⟩ := h _ _ (hget t t' ht)
  rw [outcome_zoom, outcome_zoom]
  exact ⟨hset t t' _ _ ht hstates, hresults⟩

end Parallel

end GameExport.Action
