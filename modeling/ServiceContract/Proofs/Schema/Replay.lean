import ServiceContract.Proofs.Schema.Asks
import ServiceContract.Proofs.Schema.Growth

/-! # Compiling again

Work that ended well ends in the same way in every table that has its components, and changes
nothing there. Work that failed fails again in the same way, if all the components that it entered
were finished.
-/

namespace ServiceContract

open Source TypeCompiler

namespace SchemaTable

/-- The components of a table are in another one under the same names. -/
def CoveredBy (t T : SchemaTable) : Prop :=
  ∀ key d, t.definition? key = some d → ∃ d', T.definition? key = some d' ∧ d'.name = d.name

/-- The components that a table has more than another one have schemas. -/
def Finishes (t t' : SchemaTable) : Prop :=
  ∀ key d, t'.definition? key = some d → t.definition? key = none → d.schema ≠ none

variable {t t' t'' : SchemaTable} {key name : String} {s : Schema} {d : Definition}

theorem Grows.coveredBy (h : Grows t t') : t.CoveredBy t' := fun _ _ hd => ⟨_, h.kept hd, rfl⟩

theorem CoveredBy.trans (h : t.CoveredBy t') (h' : t'.CoveredBy t'') : t.CoveredBy t'' := by
  intro key d hd
  obtain ⟨d', hd', hn⟩ := h key d hd
  obtain ⟨d'', hd'', hn'⟩ := h' key d' hd'
  exact ⟨d'', hd'', hn'.trans hn⟩

theorem coveredBy_resolve (hd : t.definition? key = some d) : t.CoveredBy (t.resolve key s) := by
  intro k d' hd'
  rw [definition?_resolve hd]
  by_cases hk : k = key
  · subst hk
    obtain rfl : d = d' := Option.some.inj (hd.symm.trans hd')
    exact ⟨_, if_pos rfl, rfl⟩
  · exact ⟨d', by rw [if_neg hk, hd'], rfl⟩

/-- Work that two tables are between finishes what it enters if the later part does. -/
theorem Finishes.of_grows (h : t.Finishes t'') (hg : Grows t t') : t'.Finishes t'' :=
  fun _ _ hd hk => h _ _ hd (definition?_eq_none_of_grows hg hk)

end SchemaTable

open SchemaTable

/-- Work has the same outcome in every table that has the components which it left behind. If it
failed, no component may be left unfinished. -/
structure Replays {α : Type} (x : Compile α) : Prop where
  grows : ∀ t, Grows t (x.runOn t).2
  ok : ∀ {t a t' T}, x.runOn t = (.ok a, t') → t'.CoveredBy T → x.runOn T = (.ok a, T)
  error : ∀ {t e t' T}, x.runOn t = (.error e, t') → t.Finishes t' → t'.CoveredBy T →
    T.stack = t.stack → x.runOn T = (.error e, T)

namespace Replays

variable {p : Program} {α β : Type} {x : Compile α} {f : α → Compile β} {t t' : SchemaTable}

theorem grows_of_runOn {r : Except Error α} (h : Replays x) (hr : x.runOn t = (r, t')) :
    Grows t t' := by
  have hg := h.grows t
  rwa [hr] at hg

theorem pure (a : α) : Replays (pure a : Compile α) where
  grows := Grows.refl
  ok hr _ := by cases hr; rfl
  error hr := by cases hr

theorem throw (e : Error) : Replays (throw e : Compile α) where
  grows := Grows.refl
  ok hr := by cases hr
  error hr _ _ _ := by cases hr; rfl

/-- The type that is being expanded is named by an error. -/
theorem fail (e : String → Error) (written : TypeExpr) :
    Replays (Compile.context written >>= fun c => MonadExcept.throw (e c) : Compile α) where
  grows := Grows.refl
  ok hr := by cases hr
  error {t e' t' T} hr _ _ hs := by
    cases hr
    show (Except.error (e (T.stack.head?.getD written.text)), T) = _
    rw [hs]

theorem bind (hx : Replays x) (hf : ∀ a, Replays (f a)) : Replays (x >>= f) where
  grows t := by
    rw [Work.runOn_bind]
    rcases hr : x.runOn t with ⟨e | a, t₁⟩
    · exact hx.grows_of_runOn hr
    · exact (hx.grows_of_runOn hr).trans ((hf a).grows t₁)
  ok {t b t' T} hr hT := by
    obtain ⟨a, t₁, hr₁, hr₂⟩ := Work.runOn_bind_eq_ok.mp hr
    have hT₁ : t₁.CoveredBy T := ((hf a).grows_of_runOn hr₂).coveredBy.trans hT
    exact Work.runOn_bind_eq_ok.mpr ⟨a, T, hx.ok hr₁ hT₁, (hf a).ok hr₂ hT⟩
  error {t e t' T} hr hn hT hs := by
    rw [Work.runOn_bind] at hr ⊢
    rcases hr₁ : x.runOn t with ⟨e' | a, t₁⟩
    · rw [hr₁] at hr
      cases hr
      rw [hx.error hr₁ hn hT hs]
    · rw [hr₁] at hr
      have hg := hx.grows_of_runOn hr₁
      have hT₁ : t₁.CoveredBy T := ((hf a).grows_of_runOn hr).coveredBy.trans hT
      -- The first part changes nothing in `T`, so the second one fails there.
      rw [hx.ok hr₁ hT₁]
      exact (hf a).error hr (hn.of_grows hg) hT (hs.trans hg.stack.symm)

/-- Work in two parts that changes nothing consists of parts that change nothing. -/
theorem runOn_bind (hx : Replays x) (hf : ∀ a, Replays (f a)) {T : SchemaTable} {b : β}
    (hr : (x >>= f).runOn T = (.ok b, T)) :
    ∃ a, x.runOn T = (.ok a, T) ∧ (f a).runOn T = (.ok b, T) := by
  obtain ⟨a, t₁, hr₁, hr₂⟩ := Work.runOn_bind_eq_ok.mp hr
  have hT : t₁.CoveredBy T := ((hf a).grows_of_runOn hr₂).coveredBy
  exact ⟨a, hx.ok hr₁ hT, (hf a).ok hr₂ (Grows.refl T).coveredBy⟩

/-- A use that ended well is a reference to its component. -/
theorem known_of_componentOf {d : TypeDecl} {args : List TypeExpr} {expand : Compile Schema}
    {s : Schema} (he : Replays expand)
    (hr : (TypeCompiler.componentOf p d args expand).runOn t = (.ok s, t')) :
    ∃ c, t'.definition? (d.key args) = some c ∧ s = .ref c.name := by
  rcases componentOf_eq_ok he.grows hr with
    ⟨c, hc, rfl, rfl⟩ | ⟨-, name, s₁, t₁, -, -, hd₁, rfl, rfl⟩
  · exact ⟨c, hc, rfl⟩
  · exact ⟨_, (definition?_resolve hd₁).trans (if_pos rfl), rfl⟩

/-- A component that fails is left unfinished, so a failure without such has other grounds. -/
theorem componentOf (d : TypeDecl) (args : List TypeExpr) {expand : Compile Schema}
    (he : Replays expand) : Replays (TypeCompiler.componentOf p d args expand) where
  grows t := by
    rcases hr : (TypeCompiler.componentOf p d args expand).runOn t with ⟨e | s, t'⟩
    · obtain ⟨hk, name, t₁, hn, hr₁, hd₁, rfl⟩ := componentOf_eq_error he.grows hr
      exact (he.grows_of_runOn hr₁).pop hk hn
    · rcases componentOf_eq_ok he.grows hr with
        ⟨d', hd', rfl, rfl⟩ | ⟨hk, name, s₁, t₁, hn, hr₁, hd₁, rfl, rfl⟩
      · exact .refl _
      · exact ((he.grows_of_runOn hr₁).pop hk hn).resolve hk hd₁
  ok {t s t' T} hr hT := by
    obtain ⟨d', hd', rfl⟩ := known_of_componentOf he hr
    obtain ⟨d'', hd'', hn⟩ := hT _ d' hd'
    rw [runOn_componentOf, hd'', ← hn]
  error {t e t' T} hr hn _ _ := by
    obtain ⟨hk, name, t₁, -, hr₁, hd₁, rfl⟩ := componentOf_eq_error he.grows hr
    exact absurd rfl (hn _ _ hd₁ hk)

end Replays

theorem workClosed_replays : WorkClosed fun _ x => Replays x where
  pure := .pure
  fail e written _ := .fail e written
  bind := .bind

/-- All work of the compiler is replayed. -/
theorem workRules_replays {p : Program} {Q : TypeExpr → Prop} (types : TypeRules p Q) :
    WorkRules p Q fun _ x => Replays x where
  toWorkClosed := workClosed_replays
  types := types
  throw := .throw
  component _ _ := .componentOf _ _

theorem Replays.within (p : Program) (n : Nat) (type : TypeExpr) (module : List String) :
    Replays (TypeCompiler.within p n type module) :=
  (workRules_replays (typeRules_true p)).within n module trivial

/-- Work that only asks for types is replayed. -/
theorem Replays.of_asks {p : Program} {n : Nat} {α : Type} {S : α → α → Prop} {x : Compile α}
    (h : Asks .none (fun _ _ => True) Eq (TypeCompiler.within p n) (TypeCompiler.within p n) True S
      x x) : Replays x :=
  (workRules_replays (typeRules_true p)).of_asks (fun _ _ _ => .within p n _ _) h

theorem Replays.compileType (p : Program) (type : TypeExpr) (module : List String) :
    Replays (p.compileType type module) :=
  (workRules_replays (typeRules_true p)).compileType module trivial

end ServiceContract
