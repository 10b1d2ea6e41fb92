import ServiceContract.Proofs.Program.Closest

/-! # The law of selection

A lookup selects among the candidates, which have the name and stand in a module whose path ends as
it is written. It finds nothing only if there is none. One in the asking module goes before all
others, then one whose module shares more outer modules with the asking one, and then the first one.
There is one declaration that all this is true of, so the law tells what every lookup finds.
-/

namespace ServiceContract

/-- A module shares outer modules with the asking one that another module does not. -/
def SharesMore (asking module other : List String) : Prop :=
  ∃ outer, outer <+: asking ∧ outer <+: module ∧ ¬ outer <+: other

/-- A module is nearer to the asking one than another one is. -/
def Nearer (asking module other : List String) : Prop :=
  other ≠ asking ∧ (module = asking ∨ SharesMore asking module other)

/-- What is found is selected from all declarations by the law. -/
structure Selects {α : Type} (moduleOf : α → List String) (asking : List String)
    (candidate : α → Prop) (all : List α) (found : Option α) : Prop where
  none_iff : found = none ↔ ∀ a ∈ all, ¬ candidate a
  mem : ∀ a ∈ found, a ∈ all ∧ candidate a
  own : ∀ a ∈ found, (∃ c ∈ all, candidate c ∧ moduleOf c = asking) → moduleOf a = asking
  closest : ∀ a ∈ found, moduleOf a ≠ asking →
    ∀ c ∈ all, candidate c → ¬ SharesMore asking (moduleOf c) (moduleOf a)
  first : ∀ a ∈ found, ∃ before after, all = before ++ a :: after ∧
    ∀ c ∈ before, candidate c → Nearer asking (moduleOf a) (moduleOf c)

section Distance

variable {asking module other outer : List String}

theorem prefix_iff_length_le (h : outer <+: asking) :
    outer <+: module ↔ outer.length ≤ sharedLength module asking := by
  induction outer generalizing asking module with
  | nil => simp
  | cons o outer ih =>
    obtain ⟨rest, rfl⟩ := h
    cases module with
    | nil => simp [sharedLength]
    | cons m module =>
      rw [List.cons_append, sharedLength, List.cons_prefix_cons]
      by_cases hm : m = o
      · rw [if_pos hm, ih (List.prefix_append _ _), List.length_cons, Nat.succ_le_succ_iff]
        exact and_iff_right hm.symm
      · rw [if_neg hm]
        simp [Ne.symm hm]

theorem sharesMore_iff :
    SharesMore asking module other ↔ sharedLength other asking < sharedLength module asking := by
  constructor
  · rintro ⟨outer, hasking, hmodule, hother⟩
    rw [prefix_iff_length_le hasking] at hmodule hother
    omega
  · intro hlt
    have hasking := List.take_prefix (sharedLength module asking) asking
    have hlength : (asking.take (sharedLength module asking)).length =
        sharedLength module asking :=
      List.length_take_of_le (sharedLength_le module asking)
    refine ⟨_, hasking, (prefix_iff_length_le hasking).mpr (Nat.le_of_eq hlength), fun hother => ?_⟩
    rw [prefix_iff_length_le hasking, hlength] at hother
    omega

theorem nearer_iff : Nearer asking module other ↔
    closeness asking other < closeness asking module := by
  rw [Nearer, sharesMore_iff]
  by_cases hother : other = asking
  · have hle := closeness_le asking module
    have hself : closeness asking other = asking.length + 1 := if_pos hother
    rw [hself]
    exact iff_of_false (fun h => h.1 hother) (Nat.not_lt.mpr hle)
  · rw [closeness, if_neg hother]
    by_cases hmodule : module = asking
    · have hlt := sharedLength_le other asking
      rw [closeness, if_pos hmodule]
      exact iff_of_true ⟨hother, .inl hmodule⟩ (Nat.lt_succ_of_le hlt)
    · rw [closeness, if_neg hmodule]
      simp [hother, hmodule]

end Distance

section Choice

variable {α : Type} {moduleOf : α → List String} {asking : List String} {all : List α} {a : α}
  {q : α → Bool}

theorem pickClosest_eq_none {as : List α} : pickClosest moduleOf asking as = none ↔ as = [] := by
  constructor
  · intro h
    by_contra hne
    rw [pickClosest_eq_firstMax] at h
    obtain ⟨a, ha⟩ : ∃ a, firstMax (fun c => closeness asking (moduleOf c)) as = some a :=
      firstMax_isSome hne
    cases h.symm.trans ha
  · rintro rfl
    rfl

theorem pickClosest_filter_eq_some_iff : pickClosest moduleOf asking (all.filter q) = some a ↔
    ∃ before after, all = before ++ a :: after ∧ q a = true ∧
      (∀ c ∈ before, q c = true →
        closeness asking (moduleOf c) < closeness asking (moduleOf a)) ∧
      ∀ c ∈ after, q c = true →
        closeness asking (moduleOf c) ≤ closeness asking (moduleOf a) := by
  rw [pickClosest_eq_firstMax, firstMax_eq_some_iff]
  constructor
  · rintro ⟨before, after, heq, hbefore, hafter⟩
    obtain ⟨l₁, l₂, rfl, rfl, hl₂⟩ := List.filter_eq_append_iff.mp heq
    obtain ⟨l₃, l₄, rfl, hl₃, ha, rfl⟩ := List.filter_eq_cons_iff.mp hl₂
    refine ⟨l₁ ++ l₃, l₄, by simp, ha, fun c hc hq => ?_, fun c hc hq => ?_⟩
    · rcases List.mem_append.mp hc with hc | hc
      · exact hbefore c (List.mem_filter.mpr ⟨hc, hq⟩)
      · exact absurd hq (hl₃ c hc)
    · exact hafter c (List.mem_filter.mpr ⟨hc, hq⟩)
  · rintro ⟨before, after, rfl, ha, hbefore, hafter⟩
    refine ⟨before.filter q, after.filter q, ?_, fun c hc => ?_, fun c hc => ?_⟩
    · rw [List.filter_append, List.filter_cons, if_pos ha]
    · exact hbefore c (List.mem_of_mem_filter hc) (List.of_mem_filter hc)
    · exact hafter c (List.mem_of_mem_filter hc) (List.of_mem_filter hc)

variable {candidate : α → Prop} {found : Option α}

/-- Nothing is closer than what the law selects. -/
theorem Selects.closeness_le (h : Selects moduleOf asking candidate all (some a)) {c : α}
    (hc : c ∈ all) (hcandidate : candidate c) :
    closeness asking (moduleOf c) ≤ closeness asking (moduleOf a) := by
  rw [← Nat.not_lt, ← nearer_iff]
  rintro ⟨ha, hown | hmore⟩
  · exact ha (h.own a rfl ⟨c, hc, hcandidate, hown⟩)
  · exact h.closest a rfl ha c hc hcandidate hmore

theorem none_eq_iff_selects (h : ∀ a ∈ all, ¬ candidate a) :
    none = found ↔ Selects moduleOf asking candidate all found := by
  constructor
  · rintro rfl
    exact ⟨iff_of_true rfl h, nofun, nofun, nofun, nofun⟩
  · exact fun hs => (hs.none_iff.mpr h).symm

/-- The law selects one declaration, the closest one of the candidates. -/
theorem pickClosest_eq_iff (hq : ∀ a, q a = true ↔ candidate a) :
    pickClosest moduleOf asking (all.filter q) = found ↔
      Selects moduleOf asking candidate all found := by
  cases found with
  | none =>
    rw [pickClosest_eq_none, List.filter_eq_nil_iff]
    simp only [hq]
    exact ⟨fun h => (none_eq_iff_selects h).mp rfl, fun h => h.none_iff.mp rfl⟩
  | some a =>
    rw [pickClosest_filter_eq_some_iff]
    simp only [hq]
    constructor
    · rintro ⟨before, after, rfl, ha, hbefore, hafter⟩
      have hle : ∀ c ∈ before ++ a :: after, candidate c →
          ¬ Nearer asking (moduleOf c) (moduleOf a) := by
        intro c hc hcandidate
        rw [nearer_iff, Nat.not_lt]
        rcases List.mem_append.mp hc with hc | hc
        · exact Nat.le_of_lt (hbefore c hc hcandidate)
        · rcases List.mem_cons.mp hc with rfl | hc
          · exact Nat.le_refl _
          · exact hafter c hc hcandidate
      have hmem : a ∈ before ++ a :: after := by simp
      constructor
      · exact iff_of_false nofun fun h => h a hmem ha
      · rintro _ ⟨⟩
        exact ⟨hmem, ha⟩
      · rintro _ ⟨⟩ ⟨c, hc, hcandidate, hown⟩
        by_contra hne
        exact hle c hc hcandidate ⟨hne, .inl hown⟩
      · rintro _ ⟨⟩ hne c hc hcandidate hmore
        exact hle c hc hcandidate ⟨hne, .inr hmore⟩
      · rintro _ ⟨⟩
        exact ⟨before, after, rfl, fun c hc hcandidate =>
          nearer_iff.mpr (hbefore c hc hcandidate)⟩
    · intro h
      obtain ⟨before, after, rfl, hbefore⟩ := h.first a rfl
      refine ⟨before, after, rfl, (h.mem a rfl).2,
        fun c hc hcandidate => nearer_iff.mp (hbefore c hc hcandidate),
        fun c hc hcandidate => h.closeness_le (by simp [hc]) hcandidate⟩

end Choice

namespace Program

variable (p : Program) (asking : List String)

/-- Every lookup selects by the law: of the declared types, structs first, then enums, then aliases;
of the functions that belong to no type; and of the constants of modules, if no type that is named
by the segment before has a constant of the name. -/
theorem lookups_select :
    (∀ path found, p.findType path asking = found ↔
      Selects TypeDecl.module asking
        (fun d => d.name = path.name ∧ path.qualifier <:+ d.module)
        (p.structs.map .struct ++ p.enums.map .enum ++ p.aliases.map .typeAlias) found) ∧
    (∀ segments found, p.freeFn segments asking = found ↔
      Selects FnDecl.module asking
        (fun f => f.selfType = none ∧ segments.getLast? = some f.name ∧
          narrowing segments.dropLast <:+ f.module) p.fns found) ∧
    ∀ segments found,
      (∀ c ∈ p.consts, segments.getLast? = some c.name → ∀ owner,
        segments.dropLast.getLast? = some owner → c.selfType ≠ some owner) →
      (p.findConst segments asking = found ↔
        Selects ConstDecl.module asking
          (fun c => c.selfType = none ∧ segments.getLast? = some c.name ∧
            narrowing segments.dropLast <:+ c.module) p.consts found) := by
  refine ⟨fun path found => ?_, fun segments found => ?_, fun segments found hnone => ?_⟩
  · refine pickClosest_eq_iff fun d => ?_
    rw [Bool.and_eq_true, beq_iff_eq, moduleMatches_iff]
  · rw [freeFn]
    cases hlast : segments.getLast? with
    | none => exact none_eq_iff_selects fun _ _ h => absurd h.2.1 (Option.some_ne_none _).symm
    | some name =>
      refine pickClosest_eq_iff fun f => ?_
      rw [Bool.and_eq_true, Bool.and_eq_true, Option.isNone_iff_eq_none, beq_iff_eq,
        moduleMatches_iff, Option.some.injEq, and_assoc, @eq_comm _ name]
  · rw [findConst]
    cases hlast : segments.getLast? with
    | none => exact none_eq_iff_selects fun _ _ h => absurd h.2.1 (Option.some_ne_none _).symm
    | some name =>
      have hassociated : (segments.dropLast.getLast?.bind fun owner =>
          p.consts.find? fun c => c.name == name && c.selfType == some owner) = none := by
        refine Option.bind_eq_none_iff.mpr fun owner howner => List.find?_eq_none.mpr fun c hc => ?_
        rw [Bool.and_eq_true, beq_iff_eq, beq_iff_eq]
        rintro ⟨rfl, hself⟩
        exact hnone c hc hlast owner howner hself
      dsimp only
      rw [hassociated]
      refine pickClosest_eq_iff fun c => ?_
      rw [Bool.and_eq_true, Bool.and_eq_true, Option.isNone_iff_eq_none, beq_iff_eq,
        moduleMatches_iff, Option.some.injEq, and_assoc, @eq_comm _ name]

section Programs

/-- From `x::z` a constant without a qualifier is that of `x::z`; with the qualifier `x` those of
`a::x` and `x` may be meant, and that of `x` is nearer. -/
theorem lookups_select_nearby :
    let p := declaredIn [["a", "x"], ["x"], ["x", "z"]]
    ∀ use ∈ [(["C"], ["x", "z"]), (["crate", "x", "C"], ["x"])],
      (∀ c ∈ p.consts, use.1.getLast? = some c.name → ∀ owner,
        use.1.dropLast.getLast? = some owner → c.selfType ≠ some owner) ∧
      Selects ConstDecl.module ["x", "z"]
        (fun c => c.selfType = none ∧ use.1.getLast? = some c.name ∧
          narrowing use.1.dropLast <:+ c.module) p.consts (some (constantIn use.2)) := by
  intro p use huse
  have hnone : ∀ c ∈ p.consts, use.1.getLast? = some c.name → ∀ owner,
      use.1.dropLast.getLast? = some owner → c.selfType ≠ some owner := by
    simp [p, declaredIn, constantIn]
  have hfound : p.findConst use.1 ["x", "z"] = some (constantIn use.2) := by
    rcases List.mem_pair.mp huse with rfl | rfl <;> rfl
  exact ⟨hnone, ((lookups_select p ["x", "z"]).2.2 use.1 _ hnone).mp hfound⟩

end Programs

end Program

end ServiceContract
