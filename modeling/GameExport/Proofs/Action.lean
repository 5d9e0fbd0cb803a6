import GameExport.Action

/-! # Laws of actions

What an action does to its state is told in two ways. An action that ends with a value did so step
by step, and every step ended with a value. An action moves along a relation when every state that
it ends in, also after a failure, is related to the one that it started in.
-/

namespace GameExport

variable {σ τ ε δ α β : Type}

/-- Two steps give a value when both do. -/
theorem bind_eq_ok {x : Except ε α} {f : α → Except ε β} {y : β} :
    x >>= f = .ok y ↔ ∃ a, x = .ok a ∧ f a = .ok y := by
  cases x <;> simp [bind, Except.bind]

theorem map_eq_ok {x : Except ε α} {f : α → β} {y : β} :
    f <$> x = .ok y ↔ ∃ a, x = .ok a ∧ f a = y := by
  cases x <;> simp [Functor.map, Except.map]

/-- Other words for an error make no value of it. -/
theorem mapError_eq_ok {x : Except ε α} {f : ε → δ} {y : α} :
    x.mapError f = .ok y ↔ x = .ok y := by
  cases x with
  | error e =>
      have hmap : (Except.error e : Except ε α).mapError f = .error (f e) := rfl
      simp [hmap]
  | ok a =>
      have hmap : (Except.ok a : Except ε α).mapError f = .ok a := rfl
      simp [hmap]

namespace Action

/-- Failures of the first action are left to the handler, which finds the changes made so far. -/
theorem outcome_tryCatch (a : Action σ ε α) (handle : ε → Action σ ε α) (s : σ) :
    (tryCatch a handle).outcome s =
      match a.outcome s with
      | (.ok x, t) => (.ok x, t)
      | (.error e, t) => (handle e).outcome t := by
  have hrun : (tryCatch a handle).outcome s =
      StateT.run (match (a.outcome s).1 with
        | .ok x => (pure (.ok x) : StateM σ (Except ε α))
        | .error e => handle e) (a.outcome s).2 := rfl
  rw [hrun]
  rcases a.outcome s with ⟨r, t⟩
  cases r <;> rfl

/-- What is done next is chosen by the state that was looked at. -/
theorem outcome_ask_bind (f : σ → α) (g : α → Action σ ε β) (s : σ) :
    (Action.ask f >>= g).outcome s = (g (f s)).outcome s := by
  rw [outcome_bind, outcome_ask]

/-! ## Actions that end with a value -/

/-- Two steps end with a value when the first one does and the second one does from there. -/
theorem outcome_bind_eq_ok {a : Action σ ε α} {f : α → Action σ ε β} {s u : σ} {y : β} :
    (a >>= f).outcome s = (.ok y, u) ↔
      ∃ x t, a.outcome s = (.ok x, t) ∧ (f x).outcome t = (.ok y, u) := by
  rw [outcome_bind]
  constructor
  · intro h
    split at h
    · next x t ha => exact ⟨x, t, ha, h⟩
    · simp at h
  · rintro ⟨x, t, ha, hf⟩
    rw [ha]
    exact hf

theorem outcome_mapError_eq_ok {f : ε → δ} {a : Action σ ε α} {s t : σ} {x : α} :
    (a.mapError f).outcome s = (.ok x, t) ↔ a.outcome s = (.ok x, t) := by
  rw [outcome_mapError]
  rcases a.outcome s with ⟨r, u⟩
  cases r with
  | ok y =>
      show ((.ok y : Except δ α), u) = (.ok x, t) ↔ _
      simp
  | error e =>
      show ((.error (f e) : Except δ α), u) = (.ok x, t) ↔ _
      simp

/-- Work on a part gives a value when it does so on that part, and the rest stays. -/
theorem outcome_zoom_eq_ok {get : τ → σ} {set : σ → τ → τ} {a : Action σ ε α} {t u : τ} {x : α} :
    (a.zoom get set).outcome t = (.ok x, u) ↔
      ∃ s, a.outcome (get t) = (.ok x, s) ∧ u = set s t := by
  rw [outcome_zoom]
  rcases a.outcome (get t) with ⟨r, s⟩
  constructor
  · intro h
    obtain ⟨rfl, rfl⟩ := Prod.mk.inj h
    exact ⟨s, rfl, rfl⟩
  · rintro ⟨s', h, rfl⟩
    obtain ⟨rfl, rfl⟩ := Prod.mk.inj h
    rfl

/-! ## Actions that fail -/

/-- Two steps end where the first one fails, or else as the second one ends. -/
theorem outcome_bind_cases {a : Action σ ε α} {f : α → Action σ ε β} {s u : σ} {r : Except ε β}
    (h : (a >>= f).outcome s = (r, u)) :
    (∃ e, a.outcome s = (.error e, u) ∧ r = .error e) ∨
      ∃ x t, a.outcome s = (.ok x, t) ∧ (f x).outcome t = (r, u) := by
  rw [outcome_bind] at h
  split at h
  · next x t ha => exact Or.inr ⟨x, t, ha, h⟩
  · next e t ha =>
      obtain ⟨rfl, rfl⟩ := Prod.mk.inj h
      exact Or.inl ⟨e, ha, rfl⟩

/-- Of two steps the first one fails, or it gives a value and the second one fails. -/
theorem outcome_bind_eq_error {a : Action σ ε α} {f : α → Action σ ε β} {s u : σ} {e : ε} :
    (a >>= f).outcome s = (.error e, u) ↔
      a.outcome s = (.error e, u) ∨
        ∃ x t, a.outcome s = (.ok x, t) ∧ (f x).outcome t = (.error e, u) := by
  rw [outcome_bind]
  rcases a.outcome s with ⟨r, t⟩
  cases r <;> simp [and_assoc]

/-- An error in other words comes from an error in the first words. -/
theorem outcome_mapError_eq_error {f : ε → δ} {a : Action σ ε α} {s t : σ} {d : δ} :
    (a.mapError f).outcome s = (.error d, t) ↔
      ∃ e, a.outcome s = (.error e, t) ∧ d = f e := by
  rw [outcome_mapError]
  rcases a.outcome s with ⟨r, u⟩
  have hok (x : α) : (Except.ok x : Except ε α).mapError f = .ok x := rfl
  have herror (e : ε) : (Except.error e : Except ε α).mapError f = .error (f e) := rfl
  cases r <;> simp [hok, herror, and_assoc, and_comm, eq_comm]

theorem outcome_zoom_eq_error {get : τ → σ} {set : σ → τ → τ} {a : Action σ ε α} {t u : τ}
    {e : ε} :
    (a.zoom get set).outcome t = (.error e, u) ↔
      ∃ s, a.outcome (get t) = (.error e, s) ∧ u = set s t := by
  rw [outcome_zoom]
  rcases a.outcome (get t) with ⟨r, s⟩
  simp [and_assoc, eq_comm]

/-! ## Actions that move along a relation -/

/-- However the action ends, the last state is related to the first one. -/
def Moves (R : σ → σ → Prop) (a : Action σ ε α) : Prop :=
  ∀ s, R s (a.outcome s).2

namespace Moves

variable {R : σ → σ → Prop}

theorem mono {Q : σ → σ → Prop} {a : Action σ ε α} (h : ∀ s t, R s t → Q s t) (ha : a.Moves R) :
    a.Moves Q :=
  fun s => h _ _ (ha s)

theorem pure (hrefl : ∀ s, R s s) (x : α) : Moves R (Pure.pure x : Action σ ε α) :=
  fun s => hrefl s

theorem throw (hrefl : ∀ s, R s s) (e : ε) : Moves R (MonadExcept.throw e : Action σ ε α) :=
  fun s => hrefl s

theorem ask (hrefl : ∀ s, R s s) (f : σ → α) : Moves R (Action.ask f : Action σ ε α) :=
  fun s => hrefl s

/-- What is done next may rely on the state that was looked at. -/
theorem ask_bind {f : σ → α} {g : α → Action σ ε β} (h : ∀ s, R s ((g (f s)).outcome s).2) :
    (Action.ask f >>= g).Moves R := by
  intro s
  rw [outcome_ask_bind]
  exact h s

/-- Two steps keep a relation that both of them keep. -/
theorem bind (htrans : ∀ s t u, R s t → R t u → R s u) {a : Action σ ε α}
    {f : α → Action σ ε β} (ha : a.Moves R) (hf : ∀ x, (f x).Moves R) : (a >>= f).Moves R := by
  intro s
  have hfirst := ha s
  rw [outcome_bind]
  split
  · next x t heq =>
      rw [heq] at hfirst
      exact htrans s t _ hfirst (hf x t)
  · next heq => rwa [heq] at hfirst

/-- What is tried keeps a relation if the handler keeps it too. -/
theorem tryCatch (htrans : ∀ s t u, R s t → R t u → R s u) {a : Action σ ε α}
    {handle : ε → Action σ ε α} (ha : a.Moves R) (hhandle : ∀ e, (handle e).Moves R) :
    Moves R (MonadExcept.tryCatch a handle) := by
  intro s
  have hfirst := ha s
  rw [outcome_tryCatch]
  split
  · next heq => rwa [heq] at hfirst
  · next e t heq =>
      rw [heq] at hfirst
      exact htrans s t _ hfirst (hhandle e t)

theorem mapError {f : ε → δ} {a : Action σ ε α} (ha : a.Moves R) : (a.mapError f).Moves R :=
  fun s => ha s

/-- Work on a part of a state moves the whole as far as it moves the part. -/
theorem zoom {Q : τ → τ → Prop} {get : τ → σ} {set : σ → τ → τ} {a : Action σ ε α}
    (hset : ∀ t s, R (get t) s → Q t (set s t)) (ha : a.Moves R) : (a.zoom get set).Moves Q :=
  fun t => hset t _ (ha (get t))

end Moves

end Action

end GameExport
