import ServiceContract.Proofs.Schema.Asks
import ServiceContract.Proofs.Schema.Components

/-! # Levels of expansion

Work that fails for want of levels says so, and no work handles that failure. So more levels make no
difference to work that does not fail for want of them.
-/

namespace ServiceContract

open Source TypeCompiler

section Work

variable {α β : Type}

/-- Work on a table fails for want of levels. -/
def Starves (x : Compile α) (t : SchemaTable) : Prop :=
  ∃ text, (x.runOn t).1 = .error (.endlessType text)

/-- Wherever the first work does not fail for want of levels, the second one ends in the same table,
with the same error or with a related result. -/
def Extends (S : α → α → Prop) (x y : Compile α) : Prop :=
  ∀ t, Starves x t ∨ (∃ e t', x.runOn t = (.error e, t') ∧ y.runOn t = (.error e, t')) ∨
    ∃ a b t', x.runOn t = (.ok a, t') ∧ y.runOn t = (.ok b, t') ∧ S a b

variable {S : α → α → Prop} {S' : β → β → Prop} {x y : Compile α} {f g : α → Compile β}
  {t t' : SchemaTable}

theorem error_bind_pure {g : α → β} {e : Error} :
    ((x >>= fun a => pure (g a)).runOn t).1 = .error e ↔ (x.runOn t).1 = .error e := by
  rw [Work.runOn_bind]
  rcases x.runOn t with ⟨e' | a, t'⟩ <;> simp

theorem starves_bind : Starves (x >>= f) t ↔
    Starves x t ∨ ∃ a t', x.runOn t = (.ok a, t') ∧ Starves (f a) t' := by
  unfold Starves
  rw [Work.runOn_bind]
  rcases x.runOn t with ⟨e | a, t'⟩ <;> simp

namespace Extends

theorem refl (h : ∀ a, S a a) (x : Compile α) : Extends S x x := by
  intro t
  rcases hr : x.runOn t with ⟨e | a, t'⟩
  · exact .inr (.inl ⟨e, t', rfl, rfl⟩)
  · exact .inr (.inr ⟨a, a, t', rfl, rfl, h a⟩)

theorem bind (hx : Extends S x y) (hf : ∀ a b, S a b → Extends S' (f a) (g b)) :
    Extends S' (x >>= f) (y >>= g) := by
  intro t
  rw [starves_bind, Work.runOn_bind, Work.runOn_bind]
  rcases hx t with hs | ⟨e, t', hr, hr'⟩ | ⟨a, b, t', hr, hr', hab⟩
  · exact .inl (.inl hs)
  · rw [hr, hr']
    exact .inr (.inl ⟨e, t', rfl, rfl⟩)
  · rw [hr, hr']
    exact (hf a b hab t').imp_left fun hs => .inr ⟨a, t', rfl, hs⟩

theorem runOn_eq (h : Extends Eq x y) (hs : ¬Starves x t) : y.runOn t = x.runOn t := by
  rcases h t with hs' | ⟨e, t', hr, hr'⟩ | ⟨a, b, t', hr, hr', rfl⟩
  · exact absurd hs' hs
  · rw [hr, hr']
  · rw [hr, hr']

end Extends

end Work

section Compiler

variable {p : Program} {W : TypeExpr → List String → Prop} {inner inner' : TypeCompiler}

theorem Extends.of_asks {F : Faults} {α : Type} {S : α → α → Prop} {h : Prop} {x y : Compile α}
    (hi : ∀ t module, W t module → Extends Eq (inner t module) (inner' t module))
    (hx : Asks F W Eq inner inner' h S x y) (hh : h) : Extends S x y := by
  induction hx with
  | pure hs => exact fun t => .inr (.inr ⟨_, _, t, rfl, rfl, hs hh⟩)
  | fail e written _ _ => exact fun t => .inr (.inl ⟨_, t, rfl, rfl⟩)
  | type ht =>
    refine fun t => (hi _ _ ht t).imp_right (.imp_right ?_)
    rintro ⟨a, b, t', hr, hr', rfl⟩
    exact ⟨a, a, t', hr, hr', rfl, rfl, rfl⟩
  | bind _ _ ihx ihf => exact (ihx hh).bind fun a b hs => ihf a b ⟨hh, hs⟩

theorem starves_componentOf {d : TypeDecl} {args : List TypeExpr} {expand : Compile Schema}
    {t : SchemaTable} : Starves (componentOf p d args expand) t ↔
      t.definition? (d.key args) = none ∧ Starves expand
        ((t.enter (d.key args) (t.freeName d.module (d.componentName args)) none).push
          (d.key args)) := by
  unfold Starves
  rw [runOn_componentOf]
  cases t.definition? (d.key args) with
  | some c => simp
  | none =>
    dsimp only
    rcases expand.runOn _ with ⟨e | s, t'⟩ <;> simp

theorem Extends.componentOf {d : TypeDecl} {args : List TypeExpr} {expand expand' : Compile Schema}
    (h : Extends Eq expand expand') :
    Extends Eq (componentOf p d args expand) (componentOf p d args expand') := by
  intro t
  rw [starves_componentOf, runOn_componentOf, runOn_componentOf]
  cases t.definition? (d.key args) with
  | some c => exact .inr (.inr ⟨_, _, t, rfl, rfl, rfl⟩)
  | none =>
    dsimp only
    rcases h ((t.enter (d.key args) (t.freeName d.module (d.componentName args)) none).push
      (d.key args)) with hs | ⟨e, t', hr, hr'⟩ | ⟨a, b, t', hr, hr', rfl⟩
    · exact .inl ⟨rfl, hs⟩
    · rw [hr, hr']
      exact .inr (.inl ⟨_, _, rfl, rfl⟩)
    · rw [hr, hr']
      exact .inr (.inr ⟨_, _, _, rfl, rfl, rfl⟩)

theorem extends_within_succ (p : Program) (n : Nat) (t : TypeExpr) (module : List String) :
    Extends Eq (within p n t module) (within p (n + 1) t module) := by
  induction n generalizing t module with
  | zero => exact fun s => .inl ⟨_, rfl⟩
  | succ n ih =>
    have follow {F : Faults} {S : Schema → Schema → Prop} {x y : Compile Schema}
        (hx : Asks F (fun _ _ => True) Eq (within p n) (within p (n + 1)) True S x y) :
        Extends S x y := .of_asks (fun t module _ => ih t module) hx trivial
    have hshape : Extends Eq (shapeOf p (within p n) (Layers.ofType t).type module)
        (shapeOf p (within p (n + 1)) (Layers.ofType t).type module) := by
      rcases shapeOf_cases (typeRules_true p) module trivial with ⟨d, args, use⟩ | hasks
      · rw [use.shapeOf_eq, use.shapeOf_eq]
        exact (follow (asks_expansionOf schemaCongruence_eq fun _ _ => trivial)).componentOf
      · exact follow (hasks True schemaCongruence_eq)
    refine hshape.bind fun s s' hs => ?_
    subst hs
    exact .refl (fun _ => rfl) _

/-- More levels make no difference to work that does not fail for want of levels. -/
theorem runOn_within_of_le {n m : Nat} (h : n ≤ m) {t : TypeExpr} {module : List String}
    {s : SchemaTable} (hs : ¬Starves (within p n t module) s) :
    (within p m t module).runOn s = (within p n t module).runOn s := by
  induction h with
  | refl => rfl
  | @step m _ ih =>
    have hm : ¬Starves (within p m t module) s := by rwa [Starves, ih]
    rw [(extends_within_succ p m t module).runOn_eq hm, ih]

end Compiler

end ServiceContract
