import ServiceContract.Work
import Mathlib.Data.List.Forall2

/-! # The effects of work

Work is judged by how it may change a state: by a step if it ends well, or else by a failure.
Steps compose, so that work in several parts is judged by its parts. What is known of a result has
to outlast later steps.
-/

namespace ServiceContract

/-- How work may change a state. -/
structure Effects (σ : Type) where
  /-- The change that work makes which ends well. -/
  Step : σ → σ → Prop
  /-- The change that work makes which ends in an error. -/
  Fails : Error → σ → σ → Prop
  refl : ∀ s, Step s s
  trans : ∀ {s₁ s₂ s₃}, Step s₁ s₂ → Step s₂ s₃ → Step s₁ s₃
  fails_trans : ∀ {e s₁ s₂ s₃}, Step s₁ s₂ → Fails e s₂ s₃ → Fails e s₁ s₃

namespace Work

variable {σ α β : Type} {E : Effects σ} {x : Work σ α} {f : α → Work σ β} {s s' : σ}
  {P Q : σ → α → Prop} {R : σ → β → Prop}

/-- From a state, work has only such effects, and its result is as described. -/
def Meets (E : Effects σ) (work : Work σ α) (s : σ) (P : σ → α → Prop) : Prop :=
  match work.runOn s with
  | (.ok a, s') => E.Step s s' ∧ P s' a
  | (.error e, s') => E.Fails e s s'

theorem Meets.ok {a : α} (h : Meets E x s P) (hx : x.runOn s = (.ok a, s')) :
    E.Step s s' ∧ P s' a := by
  rwa [Meets, hx] at h

theorem Meets.error {e : Error} (h : Meets E x s P) (hx : x.runOn s = (.error e, s')) :
    E.Fails e s s' := by
  rwa [Meets, hx] at h

theorem Meets.pure {a : α} (h : P s a) : Meets E (pure a) s P := ⟨E.refl s, h⟩

theorem Meets.throw {e : Error} (h : E.Fails e s s) : Meets E (throw e) s P := h

theorem runOn_mk (r : Except Error α) (s : σ) :
    runOn (ExceptT.mk (Pure.pure r) : Work σ α) s = (r, s) := rfl

/-- A result that is at hand changes nothing. -/
theorem Meets.mk {r : Except Error α} (ok : ∀ a, r = .ok a → P s a)
    (error : ∀ e, r = .error e → E.Fails e s s) : Meets E (ExceptT.mk (Pure.pure r)) s P := by
  cases r with
  | ok a => exact ⟨E.refl s, ok a rfl⟩
  | error e => exact error e rfl

/-- The second part starts after a step of the first one. -/
theorem Meets.bind (hx : Meets E x s P)
    (hf : ∀ a s', E.Step s s' → P s' a → Meets E (f a) s' R) : Meets E (x >>= f) s R := by
  unfold Meets
  rw [runOn_bind]
  rcases hr : x.runOn s with ⟨e | a, s₁⟩
  · exact hx.error hr
  · obtain ⟨hs, hp⟩ := hx.ok hr
    have h := hf a s₁ hs hp
    dsimp only
    rcases hr' : (f a).runOn s₁ with ⟨e | b, s₂⟩
    · exact E.fails_trans hs (h.error hr')
    · obtain ⟨hs', hp'⟩ := h.ok hr'
      exact ⟨E.trans hs hs', hp'⟩

theorem Meets.imp (hx : Meets E x s P) (h : ∀ a s', E.Step s s' → P s' a → Q s' a) :
    Meets E x s Q := by
  unfold Meets
  rcases hr : x.runOn s with ⟨e | a, s₁⟩
  · exact hx.error hr
  · obtain ⟨hs, hp⟩ := hx.ok hr
    exact ⟨hs, h a s₁ hs hp⟩

theorem Meets.map {g : α → β} (hx : Meets E x s fun s a => R s (g a)) : Meets E (g <$> x) s R := by
  rw [map_eq_pure_bind]
  exact hx.bind fun _ _ _ ha => .pure ha

/-- Work on the members of a list ends in one result for each of them. -/
theorem Meets.mapM_forall₂ {l : List α} {R : α → σ → β → Prop}
    (mono : ∀ {a s s' b}, E.Step s s' → R a s b → R a s' b)
    (h : ∀ a ∈ l, ∀ s', E.Step s s' → Meets E (f a) s' (R a)) :
    Meets E (l.mapM f) s fun s bs => List.Forall₂ (fun a b => R a s b) l bs := by
  induction l generalizing s with
  | nil => exact .pure .nil
  | cons a rest ih =>
    rw [List.mapM_cons]
    refine (h a List.mem_cons_self s (E.refl s)).bind fun b s₁ hs hb => ?_
    refine (ih fun a' ha s' hs' => ?_).bind fun bs s₂ hs' hbs => .pure ?_
    · exact h a' (List.mem_cons_of_mem _ ha) s' (E.trans hs hs')
    · exact .cons (mono hs' hb) hbs

theorem forall_mem_of_forall₂ {P : β → Prop} {l : List α} {bs : List β}
    (h : List.Forall₂ (fun _ b => P b) l bs) : ∀ b ∈ bs, P b := by
  induction h with
  | nil => simp
  | cons hb _ ih => exact List.forall_mem_cons.mpr ⟨hb, ih⟩

/-- Work on the members of a list ends in results that are all as described. -/
theorem Meets.mapM {l : List α} (mono : ∀ {s s' b}, E.Step s s' → R s b → R s' b)
    (h : ∀ a ∈ l, ∀ s', E.Step s s' → Meets E (f a) s' R) :
    Meets E (l.mapM f) s fun s bs => ∀ b ∈ bs, R s b :=
  (Meets.mapM_forall₂ (R := fun _ => R) mono h).imp fun _ _ _ => forall_mem_of_forall₂

/-- Works that change a state in the same way and end in the same result, or both in an error. -/
def Alike (x y : Work σ α) : Prop := ∀ s,
  (x.runOn s).1.toOption = (y.runOn s).1.toOption ∧ (x.runOn s).2 = (y.runOn s).2

theorem Alike.refl (x : Work σ α) : Alike x x := fun _ => ⟨rfl, rfl⟩

theorem Alike.symm {y : Work σ α} (h : Alike x y) : Alike y x :=
  fun s => ⟨(h s).1.symm, (h s).2.symm⟩

theorem Alike.bind {y : Work σ α} {g : α → Work σ β} (h : Alike x y) (hf : ∀ a, Alike (f a) (g a)) :
    Alike (x >>= f) (y >>= g) := by
  intro s
  have hs := h s
  rw [runOn_bind, runOn_bind]
  generalize x.runOn s = r, y.runOn s = r' at hs ⊢
  obtain ⟨_ | a, s₁⟩ := r <;> obtain ⟨_ | b, s₂⟩ := r' <;> obtain ⟨hr, hs⟩ := hs <;> cases hr <;>
    cases hs
  · exact ⟨rfl, rfl⟩
  · exact hf a s₁

theorem Alike.mapM {γ : Type} {f g : γ → Work σ α} {l l' : List γ}
    (h : List.Forall₂ (fun c c' => Alike (f c) (g c')) l l') : Alike (l.mapM f) (l'.mapM g) := by
  induction h with
  | nil => exact .refl _
  | cons h _ ih =>
    rw [List.mapM_cons, List.mapM_cons]
    exact h.bind fun _ => ih.bind fun _ => .refl _

end Work

end ServiceContract
