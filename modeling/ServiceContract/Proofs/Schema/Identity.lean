import ServiceContract.Proofs.Schema.Keys
import ServiceContract.Source.Lexer
import Mathlib.Data.List.TakeWhile

/-! # Keys of uses

Identifiers have none of the characters that stand between names in the text of a type. So if all
names are identifiers, then types with the same text are the same, and the key of a use of a
declaration tells its module, its name and its arguments.
-/

namespace ServiceContract

open Source

/-- A text that is read as one identifier, raw or not; a lone underscore is none. -/
def isIdentifier (s : String) : Bool :=
  Lexer.anyIdent s.toList == some (s.toList, []) && s != "_"

/-- The segments of a path: one identifier or more. A path of none would have no text, and the empty
tuple that of a tuple with such a path. -/
def isPath (segments : List String) : Bool := !segments.isEmpty && segments.all isIdentifier

namespace Source.Lexer

variable {cs : List Char}

theorem chars_of_plainIdent (h : plainIdent cs = some (cs, [])) :
    cs ≠ [] ∧ ∀ c ∈ cs, isIdentStart c = true ∨ Unicode.isXidContinue c = true := by
  cases cs with
  | nil => cases h
  | cons c cs =>
    rw [plainIdent] at h
    split at h
    · next hstart =>
      have hrest : cs.takeWhile Unicode.isXidContinue = cs :=
        (List.cons.inj (Prod.mk.inj (Option.some.inj h)).1).2
      refine ⟨List.cons_ne_nil _ _, List.forall_mem_cons.mpr ⟨.inl hstart, fun d hd => ?_⟩⟩
      exact .inr (List.takeWhile_eq_self_iff.mp hrest d hd)
    · cases h

/-- Besides the marker of a raw identifier there is only what may stand in a word. -/
theorem chars_of_anyIdent (h : anyIdent cs = some (cs, [])) : cs ≠ [] ∧
    ∀ c ∈ cs, c = 'r' ∨ c = '#' ∨ isIdentStart c = true ∨ Unicode.isXidContinue c = true := by
  unfold anyIdent at h
  split at h
  · next rest =>
    obtain ⟨⟨name, rest'⟩, hname, h⟩ := Option.bind_eq_some_iff.mp h
    dsimp only at h
    split at h
    · cases h
    · cases h
      obtain ⟨-, hchars⟩ := chars_of_plainIdent hname
      refine ⟨List.cons_ne_nil _ _, ?_⟩
      exact List.forall_mem_cons.mpr ⟨.inl rfl, List.forall_mem_cons.mpr
        ⟨.inr (.inl rfl), fun c hc => .inr (.inr (hchars c hc))⟩⟩
  · obtain ⟨hne, hchars⟩ := chars_of_plainIdent h
    exact ⟨hne, fun c hc => .inr (.inr (hchars c hc))⟩

end Source.Lexer

/-- An identifier is a plain name. -/
theorem isPlainName_of_isIdentifier {s : String} (h : isIdentifier s = true) :
    isPlainName s = true := by
  obtain ⟨hread, hblank⟩ := Bool.and_eq_true_iff.mp h
  obtain ⟨hne, hchars⟩ := Lexer.chars_of_anyIdent (eq_of_beq hread)
  have hseparators : (separators.all fun c => !(c == 'r' || c == '#' || Lexer.isIdentStart c ||
      Unicode.isXidContinue c)) = true := by decide
  refine isPlainName_iff.mpr ⟨?_, by simpa using hblank, fun c hc hs => ?_⟩
  · rintro rfl
    exact hne rfl
  · have hnot : ¬ (c = 'r' ∨ c = '#' ∨ Lexer.isIdentStart c = true ∨
        Unicode.isXidContinue c = true) := by
      simpa [and_assoc] using List.all_eq_true.mp hseparators c hs
    exact hnot (hchars c hc)

namespace TypeExpr

mutual

/-- The paths that are written in a type. -/
def paths : TypeExpr → List (List String)
  | .path segments args => segments :: pathsOf args
  | .ref t | .slice t | .array t _ => t.paths
  | .tuple ts => pathsOf ts
  | .dynamic | .unknown => []

def pathsOf : List TypeExpr → List (List String)
  | [] => []
  | t :: ts => t.paths ++ pathsOf ts

end

theorem isPlain_path_of_isPath {segments : List String} {args : List TypeExpr}
    (h : isPath segments = true) (ha : ∀ a ∈ args, a.isPlain = true) :
    (path segments args).isPlain = true := by
  obtain ⟨hne, hs⟩ := Bool.and_eq_true_iff.mp h
  refine isPlain_path.mpr ⟨by simpa using hne, fun s hm => ?_, ha⟩
  exact isPlainName_of_isIdentifier (List.all_eq_true.mp hs s hm)

mutual

/-- A type all of whose paths are made of identifiers has plain names. -/
theorem isPlain_of_paths (t : TypeExpr) (h : ∀ path ∈ t.paths, isPath path = true) :
    t.isPlain = true := by
  cases t with
  | path segments args =>
    obtain ⟨hpath, hargs⟩ := List.forall_mem_cons.mp h
    exact isPlain_path_of_isPath hpath (isPlain_of_pathsOf args hargs)
  | ref t => exact isPlain_of_paths t h
  | slice t => exact isPlain_of_paths t h
  | array t _ => exact isPlain_of_paths t h
  | tuple ts => exact allPlain_iff.mpr (isPlain_of_pathsOf ts h)
  | dynamic => rfl
  | unknown => rfl

theorem isPlain_of_pathsOf (ts : List TypeExpr) (h : ∀ path ∈ pathsOf ts, isPath path = true) :
    ∀ t ∈ ts, t.isPlain = true := by
  cases ts with
  | nil => exact nofun
  | cons t ts =>
    obtain ⟨ht, hts⟩ := List.forall_mem_append.mp h
    exact List.forall_mem_cons.mpr ⟨isPlain_of_paths t ht, isPlain_of_pathsOf ts hts⟩

end

end TypeExpr

/-- The text of a type determines the type, and the key of a use of a declaration determines the
module and the name of the declaration and the arguments, if all paths are made of identifiers. -/
theorem TypeExpr.text_and_key_determine :
    (∀ t u : TypeExpr, (∀ path ∈ t.paths ++ u.paths, isPath path = true) →
      t.text = u.text → t = u) ∧
    ∀ (d d' : TypeDecl) (args args' : List TypeExpr),
      isPath (d.module ++ [d.name]) = true → isPath (d'.module ++ [d'.name]) = true →
      (∀ path ∈ pathsOf args ++ pathsOf args', isPath path = true) →
      d.key args = d'.key args' →
      d.module = d'.module ∧ d.name = d'.name ∧ args.map text = args'.map text ∧ args = args' := by
  constructor
  · intro t u h heq
    obtain ⟨ht, hu⟩ := List.forall_mem_append.mp h
    exact text_inj (isPlain_of_paths t ht) (isPlain_of_paths u hu) heq
  · intro d d' args args' hd hd' h hkey
    obtain ⟨ha, ha'⟩ := List.forall_mem_append.mp h
    rw [TypeDecl.key_eq_text, TypeDecl.key_eq_text] at hkey
    have heq := text_inj (isPlain_path_of_isPath hd (isPlain_of_pathsOf args ha))
      (isPlain_path_of_isPath hd' (isPlain_of_pathsOf args' ha')) hkey
    obtain ⟨hsegments, rfl⟩ := path.inj heq
    obtain ⟨hmodule, hname⟩ := List.append_inj' hsegments rfl
    exact ⟨hmodule, (List.cons.inj hname).1, rfl, rfl⟩

section Uses

/-- `&[shop::Item; 4]` and `(r#type<[_]>, dyn _)`. -/
def pageArgs : List TypeExpr :=
  [.ref (.array (.path ["shop", "Item"] []) (some 4)),
    .tuple [.path ["r#type"] [.slice .unknown], .dynamic]]

/-- A type written out and one whose parameters are replaced, and a struct and an alias of one name
with the same arguments. -/
theorem TypeExpr.text_and_key_determine_pages :
    let t := TypeExpr.path ["shop", "Page"] pageArgs
    let u := Substitution.apply (.ofArgs ["T", "U"] pageArgs)
      (.path ["shop", "Page"] [.path ["T"] [], .path ["U"] []])
    let d : TypeDecl := .struct ⟨["shop", "r#mod"], ⟨[], "Page", ["T", "U"], .unit⟩⟩
    let d' : TypeDecl := .typeAlias ⟨["shop", "r#mod"], ⟨[], "Page", ["T", "U"], .unknown⟩⟩
    ((∀ path ∈ t.paths ++ u.paths, isPath path = true) ∧ t.text = u.text ∧ t = u) ∧
    isPath (d.module ++ [d.name]) = true ∧ isPath (d'.module ++ [d'.name]) = true ∧
    (∀ path ∈ pathsOf pageArgs ++ pathsOf pageArgs, isPath path = true) ∧
    d.key pageArgs = d'.key pageArgs ∧ d.module = d'.module ∧ d.name = d'.name := by
  intro t u d d'
  have hpaths : ∀ path ∈ t.paths ++ u.paths, isPath path = true := by decide
  have hargs : ∀ path ∈ pathsOf pageArgs ++ pathsOf pageArgs, isPath path = true := by decide
  have hd : isPath (d.module ++ [d.name]) = true := by decide
  have hd' : isPath (d'.module ++ [d'.name]) = true := by decide
  obtain ⟨htext, hkey⟩ := text_and_key_determine
  obtain ⟨hmodule, hname, -, -⟩ := hkey d d' pageArgs pageArgs hd hd' hargs rfl
  exact ⟨⟨hpaths, rfl, htext t u hpaths rfl⟩, hd, hd', hargs, rfl, hmodule, hname⟩

end Uses

end ServiceContract
