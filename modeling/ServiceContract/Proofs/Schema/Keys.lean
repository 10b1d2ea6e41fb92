import ServiceContract.Proofs.Program.Lookup
import ServiceContract.Proofs.Schema.Asks
import ServiceContract.Proofs.Source.TypeText

/-! # What a key tells

The key of a component is the text of the full path of a declaration with the arguments, so in a
program with plain names, different uses of declarations have different keys. All types that the
compiler asks for have plain names then.
-/

namespace ServiceContract

open Source

/-- The modules, the declared types and all written types of a program have plain names. -/
def Program.isPlain (p : Program) : Bool :=
  p.types.all fun d => d.module.all isPlainName && isPlainName d.name &&
    TypeExpr.allPlain (Program.writtenTypes d)

/-- The key of a use of a declaration is the text of its full path with the arguments. -/
theorem TypeDecl.key_eq_text (d : TypeDecl) (args : List TypeExpr) :
    d.key args = (TypeExpr.path (d.module ++ [d.name]) args).text := by
  have hq : d.qualifiedName = Text.join "::" (d.module ++ [d.name]) := qualify_eq_join ..
  cases args with
  | nil => simp [TypeDecl.key, TypeExpr.text, hq]
  | cons a as => simp [TypeDecl.key, TypeExpr.text, TypeExpr.texts_eq, hq]

namespace Program

variable {p : Program} (hp : p.isPlain = true) {d d' : TypeDecl} {args args' : List TypeExpr}
  {path path' : TypePath} {module module' : List String}

theorem isPlain_iff : p.isPlain = true ↔ ∀ d ∈ p.types,
    (∀ s ∈ d.module ++ [d.name], isPlainName s = true) ∧
      ∀ t ∈ writtenTypes d, t.isPlain = true := by
  simp only [Program.isPlain, List.all_eq_true, Bool.and_eq_true, TypeExpr.allPlain_iff,
    List.forall_mem_append, List.forall_mem_singleton]

include hp

theorem isPlain_fullPath (hd : p.findType path module = some d)
    (ha : ∀ a ∈ args, a.isPlain = true) :
    (TypeExpr.path (d.module ++ [d.name]) args).isPlain = true :=
  TypeExpr.isPlain_path.mpr ⟨by simp, (isPlain_iff.mp hp d (mem_types_of_findType hd)).1, ha⟩

/-- Different uses of declared types have different keys. -/
theorem key_inj (hd : p.findType path module = some d) (hd' : p.findType path' module' = some d')
    (ha : ∀ a ∈ args, a.isPlain = true) (ha' : ∀ a ∈ args', a.isPlain = true)
    (h : d.key args = d'.key args') : d = d' ∧ args = args' := by
  rw [TypeDecl.key_eq_text, TypeDecl.key_eq_text] at h
  have heq := TypeExpr.text_inj (isPlain_fullPath hp hd ha) (isPlain_fullPath hp hd' ha') h
  obtain ⟨hsegments, rfl⟩ := TypeExpr.path.inj heq
  obtain ⟨hmodule, hname⟩ := List.append_inj' hsegments rfl
  have hfirst := find?_of_findType hd
  rw [hmodule, (List.cons.inj hname).1, find?_of_findType hd'] at hfirst
  exact ⟨(Option.some.inj hfirst).symm, rfl⟩

end Program

mutual

theorem Program.isPlain_canonical {p : Program} (hp : p.isPlain = true) (module : List String)
    (t : TypeExpr) (ht : t.isPlain = true) : (p.canonical module t).isPlain = true := by
  cases t with
  | path segments args =>
    obtain ⟨hne, hs, ha⟩ := TypeExpr.isPlain_path.mp ht
    have hargs := isPlain_canonicalAll hp module args ha
    rw [canonical, fullPath]
    cases hd : p.findType ⟨segments, args⟩ module with
    | none => exact TypeExpr.isPlain_path.mpr ⟨hne, hs, hargs⟩
    | some d =>
      dsimp only
      split
      · refine TypeExpr.isPlain_path.mpr ⟨by simp, ?_, hargs⟩
        rw [List.cons_append, List.forall_mem_cons]
        exact ⟨by decide, (isPlain_iff.mp hp d (mem_types_of_findType hd)).1⟩
      · exact TypeExpr.isPlain_path.mpr ⟨hne, hs, hargs⟩
  | ref t => exact isPlain_canonical hp module t ht
  | slice t => exact isPlain_canonical hp module t ht
  | array t n => exact isPlain_canonical hp module t ht
  | tuple ts =>
    exact TypeExpr.allPlain_iff.mpr
      (isPlain_canonicalAll hp module ts (TypeExpr.allPlain_iff.mp ht))
  | dynamic => rfl
  | unknown => rfl

theorem Program.isPlain_canonicalAll {p : Program} (hp : p.isPlain = true) (module : List String)
    (ts : List TypeExpr) (hts : ∀ t ∈ ts, t.isPlain = true) :
    ∀ t ∈ p.canonicalAll module ts, t.isPlain = true := by
  cases ts with
  | nil => simp [canonicalAll]
  | cons t ts =>
    obtain ⟨ht, hts⟩ := List.forall_mem_cons.mp hts
    rw [canonicalAll, List.forall_mem_cons]
    exact ⟨isPlain_canonical hp module t ht, isPlain_canonicalAll hp module ts hts⟩

end

mutual

theorem Substitution.isPlain_apply {σ : Substitution} (hσ : ∀ e ∈ σ, e.2.isPlain = true)
    (t : TypeExpr) (ht : t.isPlain = true) : (σ.apply t).isPlain = true := by
  cases t with
  | path segments args =>
    obtain ⟨hne, hs, ha⟩ := TypeExpr.isPlain_path.mp ht
    have hargs := isPlain_applyAll hσ args ha
    by_cases hparam : ∃ name, segments = [name] ∧ args = []
    · obtain ⟨name, rfl, rfl⟩ := hparam
      rw [apply]
      cases hl : σ.lookup name with
      | none => exact ht
      | some t => exact hσ _ (mem_of_lookup hl)
    · rw [apply]
      · exact TypeExpr.isPlain_path.mpr ⟨hne, hs, hargs⟩
      · exact fun name hs ha => hparam ⟨name, hs, ha⟩
  | ref t => exact isPlain_apply hσ t ht
  | slice t => exact isPlain_apply hσ t ht
  | array t n => exact isPlain_apply hσ t ht
  | tuple ts =>
    exact TypeExpr.allPlain_iff.mpr (isPlain_applyAll hσ ts (TypeExpr.allPlain_iff.mp ht))
  | dynamic => rfl
  | unknown => rfl

theorem Substitution.isPlain_applyAll {σ : Substitution} (hσ : ∀ e ∈ σ, e.2.isPlain = true)
    (ts : List TypeExpr) (hts : ∀ t ∈ ts, t.isPlain = true) :
    ∀ t ∈ σ.applyAll ts, t.isPlain = true := by
  cases ts with
  | nil => simp [applyAll]
  | cons t ts =>
    obtain ⟨ht, hts⟩ := List.forall_mem_cons.mp hts
    rw [applyAll, List.forall_mem_cons]
    exact ⟨isPlain_apply hσ t ht, isPlain_applyAll hσ ts hts⟩

end

/-- In a program with plain names, all types that are asked for have plain names if one has. -/
theorem typeRules_isPlain {p : Program} (hp : p.isPlain = true) :
    TypeRules p fun t => t.isPlain = true where
  arg h := (TypeExpr.isPlain_path.mp h).2.2
  ref h := h
  slice h := h
  array h := h
  tuple h := TypeExpr.allPlain_iff.mp h
  canonical module h := p.isPlain_canonical hp module _ h
  written {path module d args} hd ha t ht := by
    refine Substitution.isPlain_apply (fun e he => ?_) t
      ((Program.isPlain_iff.mp hp d (Program.mem_types_of_findType hd)).2 t ht)
    exact ha e.2 (List.of_mem_zip (List.mem_reverse.mp he)).2

end ServiceContract
