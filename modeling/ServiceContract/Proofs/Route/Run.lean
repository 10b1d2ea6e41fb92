import ServiceContract.Route.Replay
import ServiceContract.Proofs.Route.Forest

/-! # Runs without levels

What a replay does is told here by rules that know no levels, so that a run is a finite tree of
them. A run is a function of what it starts from, and it leaves alone what was settled before.
-/

namespace ServiceContract

namespace ReplayState

variable {s : ReplayState} {m : Move} {ms ms' : List Move} {f : FnDecl} {way : Way} {key : String}

@[simp] theorem after_nil : s.after [] = s := rfl

@[simp] theorem after_cons : s.after (m :: ms) = (s.apply m).after ms := rfl

@[simp] theorem after_append : s.after (ms ++ ms') = (s.after ms).after ms' := List.foldl_append

theorem mem_begun_begin :
    key ∈ (s.apply (.begin f way)).begun ↔ key = f.key ∨ key ∈ s.begun := by
  simp only [apply]
  split
  · next hb =>
    have hb : f.key ∈ s.begun := by simpa using hb
    exact ⟨.inr, fun h => h.elim (· ▸ hb) id⟩
  · exact List.mem_cons

end ReplayState

namespace Replay

/-- What a run carries out. -/
inductive Task
  | script (rights : Rights) (body : Script (Option ScopeId))
  | jump (j : Jump)
  | turns (js : List Jump)

/-- A script goes on to another one with a move of its own. -/
inductive Step (rights : Rights) (s : ReplayState) :
    Script (Option ScopeId) → Move → Script (Option ScopeId) → Prop
  | make {operators next} :
    Step rights s (.make operators next) (.make operators) (next s.forest.size)
  | link {parent child next} : Step rights s (.link parent child next) (.link parent child) next
  | attach {id operators next} :
    Step rights s (.attach id operators next) (.attach id operators) next
  | serve {id next} : rights.serves = true → Step rights s (.serve id next) (.serve id) next

/-- Carrying out a task makes these moves and has this result. -/
inductive Runs (p : Program) : Task → ReplayState → List Move → Option ScopeId → Prop
  | done {rights s a} : Runs p (.script rights (.done a)) s [] a
  | move {rights body m next s ms a} : Step rights s body m next →
    Runs p (.script rights next) (s.apply m) ms a → Runs p (.script rights body) s (m :: ms) a
  | unserved {rights id next s ms a} : rights.serves = false →
    Runs p (.script rights next) s ms a →
    Runs p (.script rights (.serve id next)) s ms a
  | static {rights name next s ms ms' scope a} :
    Runs p (.jump (.static name)) s ms scope →
    Runs p (.script rights (next scope)) (s.after ms) ms' a →
    Runs p (.script rights (.static name next)) s (ms ++ ms') a
  | call {rights f args next s ms ms' scope a} :
    Runs p (.jump (.function f (wayOf rights f args))) s ms scope →
    Runs p (.script rights (next scope)) (s.after ms) ms' a →
    Runs p (.script rights (.call f args next)) s (ms ++ ms') a
  /-- A function that is replayed only once has been. -/
  | known {f way s} : way.once = true → f.key ∈ s.begun →
    Runs p (.jump (.function f way)) s [] (s.answer f.key)
  /-- A function is being replayed. -/
  | busy {f way s} : (way.once = true → f.key ∉ s.begun) → f.key ∈ s.stack →
    Runs p (.jump (.function f way)) s [] none
  | body {f way s ms a} : (way.once = true → f.key ∉ s.begun) → f.key ∉ s.stack →
    Runs p (.script way.rights (f.script p way.params)) (s.apply (.begin f way)) ms a →
    Runs p (.jump (.function f way)) s (.begin f way :: (ms ++ [.finish f way a])) a
  /-- The value of a static has been asked for before. -/
  | asked {name s scope} : s.statics.lookup name = some scope →
    Runs p (.jump (.static name)) s [] scope
  | undeclared {name s} : s.statics.lookup name = none →
    (p.statics.find? fun d => d.item.name == name) = none →
    Runs p (.jump (.static name)) s [] none
  | value {name d s ms a} : s.statics.lookup name = none →
    (p.statics.find? fun d => d.item.name == name) = some d →
    Runs p (.script {} (d.script p)) (s.apply (.enter name)) ms a →
    Runs p (.jump (.static name)) s (.enter name :: (ms ++ [.leave name a])) a
  | idle {s} : Runs p (.turns []) s [] none
  | turn {j js s ms ms' a} :
    Runs p (.jump j) s ms a →
    Runs p (.turns js) (s.after ms) ms' none →
    Runs p (.turns (j :: js)) s (ms ++ ms') none

variable {p : Program} {t : Task} {s s' : ReplayState} {ms ms' : List Move} {a a' : Option ScopeId}

/-- From where a task starts, its moves and its result follow. -/
theorem Runs.unique (h : Runs p t s ms a) (h' : Runs p t s ms' a') : ms = ms' ∧ a = a' := by
  -- the guards of two rules for one task exclude each other
  induction h generalizing ms' a' with
  | done =>
    cases h' with
    | done => exact ⟨rfl, rfl⟩
    | move hm => cases hm
  | move hm _ ih =>
    cases hm with
    | make | link | attach =>
      cases h' with
      | move hm' h' =>
        cases hm'
        obtain ⟨rfl, rfl⟩ := ih h'
        exact ⟨rfl, rfl⟩
    | serve hs =>
      cases h' with
      | move hm' h' =>
        cases hm'
        obtain ⟨rfl, rfl⟩ := ih h'
        exact ⟨rfl, rfl⟩
      | unserved hs' => cases hs.symm.trans hs'
  | unserved hs _ ih =>
    cases h' with
    | move hm' =>
      cases hm' with
      | serve hs' => cases hs.symm.trans hs'
    | unserved _ h' => exact ih h'
  | static _ _ ih ih' =>
    cases h' with
    | move hm => cases hm
    | static h h' =>
      obtain ⟨rfl, rfl⟩ := ih h
      obtain ⟨rfl, rfl⟩ := ih' h'
      exact ⟨rfl, rfl⟩
  | call _ _ ih ih' =>
    cases h' with
    | move hm => cases hm
    | call h h' =>
      obtain ⟨rfl, rfl⟩ := ih h
      obtain ⟨rfl, rfl⟩ := ih' h'
      exact ⟨rfl, rfl⟩
  | known ho hb =>
    cases h' with
    | known => exact ⟨rfl, rfl⟩
    | busy hn | body hn => exact absurd hb (hn ho)
  | busy hn hs =>
    cases h' with
    | known ho hb => exact absurd hb (hn ho)
    | busy => exact ⟨rfl, rfl⟩
    | body _ hs' => exact absurd hs hs'
  | body hn hs _ ih =>
    cases h' with
    | known ho hb => exact absurd hb (hn ho)
    | busy _ hs' => exact absurd hs' hs
    | body _ _ h' =>
      obtain ⟨rfl, rfl⟩ := ih h'
      exact ⟨rfl, rfl⟩
  | asked hl =>
    cases h' with
    | asked hl' => exact ⟨rfl, Option.some.inj (hl.symm.trans hl')⟩
    | undeclared hl' | value hl' => cases hl.symm.trans hl'
  | undeclared hl hf =>
    cases h' with
    | asked hl' => cases hl.symm.trans hl'
    | undeclared => exact ⟨rfl, rfl⟩
    | value _ hf' => cases hf.symm.trans hf'
  | value hl hf _ ih =>
    cases h' with
    | asked hl' => cases hl.symm.trans hl'
    | undeclared _ hf' => cases hf.symm.trans hf'
    | value _ hf' h' =>
      obtain rfl := Option.some.inj (hf.symm.trans hf')
      obtain ⟨rfl, rfl⟩ := ih h'
      exact ⟨rfl, rfl⟩
  | idle => cases h'; exact ⟨rfl, rfl⟩
  | turn _ _ ih ih' =>
    cases h' with
    | turn h h' =>
      obtain ⟨rfl, -⟩ := ih h
      obtain ⟨rfl, -⟩ := ih' h'
      exact ⟨rfl, rfl⟩

/-- A state holds all that was settled in an earlier one, and the same functions are being
replayed. -/
structure Keeps (s s' : ReplayState) : Prop where
  size : s.forest.size ≤ s'.forest.size
  stack : s'.stack = s.stack
  begun : ∀ key ∈ s.begun, key ∈ s'.begun
  returned : ∀ key ∈ s.begun, s'.returned.lookup key = s.returned.lookup key
  statics : ∀ name scope, s.statics.lookup name = some scope →
    s'.statics.lookup name = some scope

namespace Keeps

variable {f : FnDecl} {way : Way} {name : String}

theorem refl (s : ReplayState) : Keeps s s :=
  ⟨Nat.le_refl _, rfl, fun _ h => h, fun _ _ => rfl, fun _ _ h => h⟩

theorem trans {s'' : ReplayState} (h : Keeps s s') (h' : Keeps s' s'') : Keeps s s'' where
  size := Nat.le_trans h.size h'.size
  stack := h'.stack.trans h.stack
  begun key hk := h'.begun key (h.begun key hk)
  returned key hk := (h'.returned key (h.begun key hk)).trans (h.returned key hk)
  statics name scope hl := h'.statics name scope (h.statics name scope hl)

theorem of_forest {forest : ScopeForest} {root : Option ScopeId}
    (h : s.forest.size ≤ forest.size) : Keeps s { s with forest, root } :=
  ⟨h, rfl, fun _ h => h, fun _ _ => rfl, fun _ _ h => h⟩

/-- A body that is replayed settles what its function gives, and nothing that was settled. -/
theorem body (hn : way.once = true → f.key ∉ s.begun)
    (h : Keeps (s.apply (.begin f way)) s') : Keeps s (s'.apply (.finish f way a)) where
  size := h.size
  stack := congrArg List.tail h.stack
  begun key hk := h.begun key (ReplayState.mem_begun_begin.mpr (.inr hk))
  returned key hk := by
    have hkept := h.returned key (ReplayState.mem_begun_begin.mpr (.inr hk))
    cases way with
    | called =>
      have hne : key ≠ f.key := fun he => hn rfl (he ▸ hk)
      exact (lookup_setKey_of_ne hne).trans hkept
    | bound | entry | remaining => exact hkept
  statics := h.statics

theorem value (hl : s.statics.lookup name = none) (h : Keeps (s.apply (.enter name)) s') :
    Keeps s (s'.apply (.leave name a)) where
  size := h.size
  stack := h.stack
  begun := h.begun
  returned := h.returned
  statics other scope ho := by
    have hne : other ≠ name := fun he => by simp [he, hl] at ho
    refine (lookup_setKey_of_ne hne).trans (h.statics other scope ?_)
    exact (lookup_setKey_of_ne hne).trans ho

end Keeps

theorem Step.keeps {rights : Rights} {body next : Script (Option ScopeId)} {m : Move}
    (h : Step rights s body m next) : Keeps s (s.apply m) := by
  cases h with
  | make => exact .of_forest (ScopeForest.size_add ▸ Nat.le_succ _)
  | link => exact .of_forest (Nat.le_of_eq ScopeForest.size_link.symm)
  | attach => exact .of_forest (Nat.le_of_eq ScopeForest.size_attach.symm)
  | serve => exact .of_forest (Nat.le_refl _)

theorem Runs.keeps (h : Runs p t s ms a) : Keeps s (s.after ms) := by
  induction h with
  | done | known | busy | asked | undeclared | idle => exact .refl _
  | move hm _ ih => exact hm.keeps.trans ih
  | unserved _ _ ih => exact ih
  | static _ _ ih ih' | call _ _ ih ih' | turn _ _ ih ih' =>
    rw [ReplayState.after_append]
    exact ih.trans ih'
  | body hn _ _ ih =>
    rw [ReplayState.after_cons, ReplayState.after_append]
    exact .body hn ih
  | value hl _ _ ih =>
    rw [ReplayState.after_cons, ReplayState.after_append]
    exact .value hl ih

end Replay

end ServiceContract
