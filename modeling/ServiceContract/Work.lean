import ServiceContract.Error

/-! # Work that may fail

Work on a state ends with a result or with an error. Either way it leaves a state behind.
-/

namespace ServiceContract

/-- Work on a state that may fail; the state stays as the failure left it. -/
abbrev Work (σ : Type) := ExceptT Error (StateM σ)

namespace Work

variable {σ α β : Type}

/-- Runs work from a state: the outcome and the state after it. -/
def runOn (work : Work σ α) (s : σ) : Except Error α × σ := StateT.run (ExceptT.run work) s

@[simp] theorem runOn_pure (a : α) (s : σ) : runOn (pure a) s = (.ok a, s) := rfl

@[simp] theorem runOn_throw (e : Error) (s : σ) :
    (throw e : Work σ α).runOn s = (.error e, s) := rfl

@[simp] theorem runOn_get (s : σ) : (get : Work σ σ).runOn s = (.ok s, s) := rfl

@[simp] theorem runOn_set (s t : σ) : (set t : Work σ Unit).runOn s = (.ok (), t) := rfl

theorem runOn_bind (x : Work σ α) (f : α → Work σ β) (s : σ) : (x >>= f).runOn s =
    match x.runOn s with
    | (.ok a, s) => (f a).runOn s
    | (.error e, s) => (.error e, s) := by
  simp only [runOn, ExceptT.run_bind, StateT.run_bind]
  rcases (ExceptT.run x).run s with ⟨_ | _, _⟩ <;> rfl

theorem runOn_tryCatch (x : Work σ α) (f : Error → Work σ α) (s : σ) :
    (tryCatch x f).runOn s =
      match x.runOn s with
      | (.ok a, s) => (.ok a, s)
      | (.error e, s) => (f e).runOn s := by
  simp only [runOn, ExceptT.run_tryCatch, StateT.run_bind]
  rcases (ExceptT.run x).run s with ⟨_ | _, _⟩ <;> rfl

/-- Observed work does not fail; its outcome is the result. -/
@[simp] theorem runOn_observing (x : Work σ α) (s : σ) :
    (observing x).runOn s = (.ok (x.runOn s).1, (x.runOn s).2) := by
  unfold observing
  rw [runOn_tryCatch, runOn_bind]
  rcases x.runOn s with ⟨_ | _, _⟩ <;> rfl

/-- Work in two steps ends well if both do. -/
theorem runOn_bind_eq_ok {x : Work σ α} {f : α → Work σ β} {s s' : σ} {b : β} :
    (x >>= f).runOn s = (.ok b, s') ↔
      ∃ a s₁, x.runOn s = (.ok a, s₁) ∧ (f a).runOn s₁ = (.ok b, s') := by
  rw [runOn_bind]
  rcases x.runOn s with ⟨_ | a, s₁⟩
  · simp
  · exact ⟨fun h => ⟨a, s₁, rfl, h⟩, fun ⟨_, _, he, h⟩ => by cases he; exact h⟩

end Work

end ServiceContract
