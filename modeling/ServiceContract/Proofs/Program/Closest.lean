import ServiceContract.Proofs.Program.Lookup

/-! # The closest declaration

Of the declarations that a path may mean, the one with the greatest closeness to the asking module
is meant, and of several the first. A path from the root of the crate narrows the modules only by
how they end, so the declaration that it names has to be the closest one as well.
-/

namespace ServiceContract

open Source

/-- How close a module is to the asking one: the names that both paths begin with are counted, and
nothing is closer than the module itself. -/
def closeness (asking module : List String) : Nat :=
  if module = asking then asking.length + 1 else sharedLength module asking

section Choice

variable {α : Type} {a d : α} {as before after : List α} {moduleOf : α → List String}
  {asking module : List String} {named : α → Bool}

theorem sharedLength_le (as bs : List String) : sharedLength as bs ≤ bs.length := by
  induction as generalizing bs with
  | nil => simp [sharedLength]
  | cons a as ih =>
    cases bs with
    | nil => simp [sharedLength]
    | cons b bs =>
      rw [sharedLength]
      split
      · exact Nat.succ_le_succ (ih bs)
      · exact Nat.zero_le _

theorem closeness_le (asking module : List String) :
    closeness asking module ≤ asking.length + 1 := by
  unfold closeness
  split
  · exact Nat.le_refl _
  · exact Nat.le_succ_of_le (sharedLength_le _ _)

theorem closeness_lt_of_ne (h : module ≠ asking) : closeness asking module < asking.length + 1 := by
  rw [closeness, if_neg h]
  exact Nat.lt_succ_of_le (sharedLength_le _ _)

/-- The first element of the greatest score: those before it score less, and none behind it
scores more. -/
theorem firstMax_eq_some_iff {score : α → Nat} : firstMax score as = some a ↔
    ∃ before after, as = before ++ a :: after ∧ (∀ b ∈ before, score b < score a) ∧
      ∀ b ∈ after, score b ≤ score a := by
  constructor
  · intro h
    induction as generalizing a with
    | nil => cases h
    | cons b bs ih =>
      unfold firstMax at h
      cases hc : firstMax score bs with
      | none =>
        have hbs : bs = [] := by
          by_contra hne
          obtain ⟨c, hc'⟩ : ∃ c, firstMax score bs = some c := firstMax_isSome hne
          simp [hc] at hc'
        rw [hc] at h
        cases h
        exact ⟨[], bs, rfl, by simp, by simp [hbs]⟩
      | some c =>
        obtain ⟨before, after, rfl, hbefore, hafter⟩ := ih hc
        simp only [hc] at h
        split at h <;> cases h
        · next hlt =>
          exact ⟨b :: before, after, rfl, List.forall_mem_cons.mpr ⟨hlt, hbefore⟩, hafter⟩
        · next hle =>
          have hcb : score c ≤ score b := Nat.not_lt.mp hle
          refine ⟨[], _, rfl, by simp, List.forall_mem_append.mpr ⟨fun x hx => ?_, ?_⟩⟩
          · exact Nat.le_trans (Nat.le_of_lt (hbefore x hx)) hcb
          · exact List.forall_mem_cons.mpr ⟨hcb, fun x hx => Nat.le_trans (hafter x hx) hcb⟩
  · rintro ⟨before, after, rfl, hbefore, hafter⟩
    induction before with
    | nil =>
      rw [List.nil_append, firstMax]
      cases hc : firstMax score after with
      | none => rfl
      | some c => exact if_neg (Nat.not_lt.mpr (hafter c (mem_of_firstMax hc)))
    | cons b before ih =>
      obtain ⟨hb, hbefore⟩ := List.forall_mem_cons.mp hbefore
      rw [List.cons_append, firstMax, ih hbefore]
      exact if_pos hb

/-- The closest candidate is the first one of the greatest closeness. -/
theorem pickClosest_eq_firstMax :
    pickClosest moduleOf asking as = firstMax (fun c => closeness asking (moduleOf c)) as := by
  unfold pickClosest
  split
  · next c hc =>
    obtain ⟨hm, before, after, rfl, hbefore⟩ := List.find?_eq_some_iff_append.mp hc
    have hself : closeness asking (moduleOf c) = asking.length + 1 := if_pos (by simpa using hm)
    refine (firstMax_eq_some_iff.mpr ⟨before, after, rfl, fun b hb => ?_, fun b _ => ?_⟩).symm
    · rw [hself]
      exact closeness_lt_of_ne (by simpa using hbefore b hb)
    · rw [hself]
      exact closeness_le _ _
  · next hnone =>
    have hother : ∀ c ∈ as, sharedLength (moduleOf c) asking = closeness asking (moduleOf c) := by
      intro c hc
      have hne : ¬ moduleOf c = asking := by simpa using List.find?_eq_none.mp hnone c hc
      exact (if_neg hne).symm
    clear hnone
    induction as with
    | nil => rfl
    | cons c as ih =>
      obtain ⟨hc, has⟩ := List.forall_mem_cons.mp hother
      rw [firstMax, firstMax, ih has]
      cases hb : firstMax (fun c => closeness asking (moduleOf c)) as with
      | none => rfl
      | some b =>
        dsimp only
        rw [hc, has b (mem_of_firstMax hb)]

/-- In a module a name is declared by one element of a list. -/
structure Declares (moduleOf : α → List String) (named : α → Bool) (module : List String)
    (before : List α) (d : α) (after : List α) : Prop where
  name : named d = true
  place : moduleOf d = module
  sole : ∀ c ∈ before ++ after, named c = true → moduleOf c ≠ module

/-- What else has the name, in modules whose paths end in the same way, is less close to the asking
module than this one, or as close and declared later. -/
structure GivesWay (moduleOf : α → List String) (named : α → Bool) (module asking : List String)
    (before after : List α) : Prop where
  earlier : ∀ c ∈ before, named c = true → module <:+ moduleOf c →
    closeness asking (moduleOf c) < closeness asking module
  later : ∀ c ∈ after, named c = true → module <:+ moduleOf c →
    closeness asking (moduleOf c) ≤ closeness asking module

/-- The declaration in a module is chosen exactly if all others give way to it. -/
theorem pickClosest_eq_some_iff (h : Declares moduleOf named module before d after) :
    pickClosest moduleOf asking ((before ++ d :: after).filter fun c =>
        named c && moduleMatches (moduleOf c) module) = some d ↔
      GivesWay moduleOf named module asking before after := by
  have hd : (named d && moduleMatches (moduleOf d) module) = true := by
    simp [h.name, h.place, moduleMatches_iff]
  have hmem : ∀ {c l}, c ∈ List.filter (fun c => named c && moduleMatches (moduleOf c) module) l ↔
      c ∈ l ∧ named c = true ∧ module <:+ moduleOf c := by
    simp [moduleMatches_iff]
  have hnot : ∀ l, l ⊆ before ++ after →
      d ∉ l.filter fun c => named c && moduleMatches (moduleOf c) module := fun l hl hm =>
    h.sole d (hl (hmem.mp hm).1) h.name h.place
  rw [pickClosest_eq_firstMax, List.filter_append, List.filter_cons, if_pos hd,
    firstMax_eq_some_iff]
  constructor
  · rintro ⟨before', after', heq, hbefore, hafter⟩
    obtain ⟨rfl, -, rfl⟩ := (List.append_cons_inj_of_notMem
      (hnot before (List.subset_append_left _ _))
      (hnot after (List.subset_append_right _ _))).mp heq
    rw [h.place] at hbefore hafter
    exact ⟨fun c hc hn hs => hbefore c (hmem.mpr ⟨hc, hn, hs⟩),
      fun c hc hn hs => hafter c (hmem.mpr ⟨hc, hn, hs⟩)⟩
  · intro hg
    refine ⟨_, _, rfl, fun c hc => ?_, fun c hc => ?_⟩
    · obtain ⟨hc, hn, hs⟩ := hmem.mp hc
      exact h.place ▸ hg.earlier c hc hn hs
    · obtain ⟨hc, hn, hs⟩ := hmem.mp hc
      exact h.place ▸ hg.later c hc hn hs

end Choice

namespace Program

variable {p : Program} {asking module : List String} {name : String}

theorem narrowing_root (h : ∀ s ∈ module, s ∉ pathRoots) :
    narrowing ("crate" :: module) = module := by
  rw [narrowing, List.filter_cons_of_neg (by decide)]
  exact List.filter_eq_self.mpr fun s hs => by simpa using h s hs

theorem findType_root (args : List TypeExpr) (h : ∀ s ∈ module, s ∉ pathRoots) :
    p.findType ⟨"crate" :: (module ++ [name]), args⟩ asking =
      pickClosest TypeDecl.module asking
        (p.types.filter fun d => d.name == name && moduleMatches d.module module) := by
  have hname : (⟨"crate" :: (module ++ [name]), args⟩ : TypePath).name = name := by
    rw [TypePath.name, ← List.cons_append, List.getLast?_concat, Option.getD_some]
  have hqualifier : (⟨"crate" :: (module ++ [name]), args⟩ : TypePath).qualifier = module := by
    rw [TypePath.qualifier, ← List.cons_append, List.dropLast_concat]
    exact narrowing_root h
  rw [findType, resolveType, hname, hqualifier]

theorem freeFn_root (h : ∀ s ∈ module, s ∉ pathRoots) :
    p.freeFn ("crate" :: (module ++ [name])) asking =
      pickClosest FnDecl.module asking
        (p.fns.filter fun f => (f.selfType.isNone && f.name == name) &&
          moduleMatches f.module module) := by
  rw [freeFn, ← List.cons_append, List.getLast?_concat]
  dsimp only
  rw [List.dropLast_concat, narrowing_root h]

/-- A constant of a type with the name of the last module goes before all constants of modules. -/
theorem findConst_root (h : ∀ s ∈ module, s ∉ pathRoots) :
    p.findConst ("crate" :: (module ++ [name])) asking =
      ((p.consts.find? fun c => c.name == name && c.selfType == ("crate" :: module).getLast?).or
        (pickClosest ConstDecl.module asking
          (p.consts.filter fun c => (c.selfType.isNone && c.name == name) &&
            moduleMatches c.module module))) := by
  obtain ⟨owner, howner⟩ : ∃ owner, ("crate" :: module).getLast? = some owner :=
    ⟨_, List.getLast?_eq_some_getLast (List.cons_ne_nil _ _)⟩
  rw [findConst, ← List.cons_append, List.getLast?_concat]
  dsimp only
  rw [List.dropLast_concat, narrowing_root h, howner, Option.bind_some]
  cases p.consts.find? fun c => c.name == name && c.selfType == some owner with
  | none => rfl
  | some c => rfl

/-- A path from the root of the crate names the declaration in its module exactly if all namesakes
in modules that end in the same way give way to it, and a constant only if no type with the name of
the last module has a constant of that name. -/
theorem root_path_iff (p : Program) (asking : List String)
    (hroots : ∀ s ∈ module, s ∉ pathRoots) :
    (∀ name args before d after, p.types = before ++ d :: after →
      Declares TypeDecl.module (fun d => d.name == name) module before d after →
      (p.findType ⟨"crate" :: (module ++ [name]), args⟩ asking = some d ↔
        GivesWay TypeDecl.module (fun d => d.name == name) module asking before after)) ∧
    (∀ name before f after, p.fns = before ++ f :: after →
      Declares FnDecl.module (fun f => f.selfType.isNone && f.name == name) module before f after →
      (p.freeFn ("crate" :: (module ++ [name])) asking = some f ↔
        GivesWay FnDecl.module (fun f => f.selfType.isNone && f.name == name) module asking
          before after)) ∧
    ∀ name before c after, p.consts = before ++ c :: after →
      Declares ConstDecl.module (fun c => c.selfType.isNone && c.name == name) module
        before c after →
      (p.findConst ("crate" :: (module ++ [name])) asking = some c ↔
        (∀ b ∈ p.consts, b.name = name → b.selfType ≠ ("crate" :: module).getLast?) ∧
        GivesWay ConstDecl.module (fun c => c.selfType.isNone && c.name == name) module asking
          before after) := by
  refine ⟨fun name args before d after heq h => ?_, fun name before f after heq h => ?_,
    fun name before c after heq h => ?_⟩
  · rw [findType_root args hroots, heq]
    exact pickClosest_eq_some_iff h
  · rw [freeFn_root hroots, heq]
    exact pickClosest_eq_some_iff h
  · have hpick : pickClosest ConstDecl.module asking _ = some c ↔ _ := pickClosest_eq_some_iff h
    rw [← heq] at hpick
    rw [findConst_root hroots, ← hpick]
    cases hfind : p.consts.find? fun b =>
        b.name == name && b.selfType == ("crate" :: module).getLast? with
    | none =>
      have hnone : ∀ b ∈ p.consts, b.name = name → b.selfType ≠ ("crate" :: module).getLast? := by
        simpa using hfind
      exact (and_iff_right hnone).symm
    | some b =>
      -- the constant of a type is not the one of the module, which has no type
      have hb := List.find?_some hfind
      simp only [Bool.and_eq_true, beq_iff_eq] at hb
      have hmodule : c.selfType = none := by
        have hname := h.name
        simp only [Bool.and_eq_true, Option.isNone_iff_eq_none] at hname
        exact hname.1
      have hne : some b ≠ some c := by
        rintro ⟨⟩
        simp [hmodule, List.getLast?_eq_some_getLast] at hb
      exact ⟨fun h => absurd h hne,
        fun hg => absurd hb.2 (hg.1 b (List.mem_of_find?_eq_some hfind) hb.1)⟩

section Programs

/-- A type in a module. -/
def typeIn (module : List String) : Declared StructItem := ⟨module, ⟨[], "N", [], .unit⟩⟩

def functionIn (module : List String) : FnDecl :=
  ⟨qualify module "f", module, none, none, ⟨[], "f", [], none, [], []⟩⟩

def constantIn (module : List String) : ConstDecl :=
  ⟨module, none, ⟨[], "C", .path ["u8"] [], .lit (.int false 1)⟩⟩

/-- Modules that declare the same names: a type, a function and a constant. -/
def declaredIn (modules : List (List String)) : Program where
  structs := modules.map typeIn
  fns := modules.map functionIn
  consts := modules.map constantIn

/-- From `a` the full paths find what `a::b` declares. -/
theorem root_path_iff_nearby :
    let p := declaredIn [["a", "b"], ["x", "a", "b"]]
    (∀ s ∈ ["a", "b"], s ∉ pathRoots) ∧
    p.findType ⟨["crate", "a", "b", "N"], []⟩ ["a"] = some (.struct (typeIn ["a", "b"])) ∧
    p.freeFn ["crate", "a", "b", "f"] ["a"] = some (functionIn ["a", "b"]) ∧
    p.findConst ["crate", "a", "b", "C"] ["a"] = some (constantIn ["a", "b"]) := by
  intro p
  have hroots : ∀ s ∈ ["a", "b"], s ∉ pathRoots := by decide
  obtain ⟨htype, hfn, hconst⟩ := root_path_iff p ["a"] hroots
  refine ⟨hroots, ?_, ?_, ?_⟩
  · exact (htype "N" [] [] (.struct (typeIn ["a", "b"])) [.struct (typeIn ["x", "a", "b"])] rfl
      ⟨by decide, rfl, by decide⟩).mpr ⟨by simp, by decide⟩
  · exact (hfn "f" [] (functionIn ["a", "b"]) [functionIn ["x", "a", "b"]] rfl
      ⟨by decide, rfl, by decide⟩).mpr ⟨by simp, by decide⟩
  · exact (hconst "C" [] (constantIn ["a", "b"]) [constantIn ["x", "a", "b"]] rfl
      ⟨by decide, rfl, by decide⟩).mpr ⟨by decide, by simp, by decide⟩

/-- From `x` the same paths find what `x::a::b` declares. -/
theorem root_path_passed_over :
    let p := declaredIn [["a", "b"], ["x", "a", "b"]]
    Declares TypeDecl.module (fun d => d.name == "N") ["a", "b"]
      [] (.struct (typeIn ["a", "b"])) [.struct (typeIn ["x", "a", "b"])] ∧
    p.findType ⟨["crate", "a", "b", "N"], []⟩ ["x"] = some (.struct (typeIn ["x", "a", "b"])) ∧
    p.freeFn ["crate", "a", "b", "f"] ["x"] = some (functionIn ["x", "a", "b"]) ∧
    p.findConst ["crate", "a", "b", "C"] ["x"] = some (constantIn ["x", "a", "b"]) := by
  refine ⟨⟨by decide, rfl, by decide⟩, rfl, rfl, rfl⟩

end Programs

end Program

end ServiceContract
