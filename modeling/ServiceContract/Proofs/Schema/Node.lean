import ServiceContract.Schema.OfType

/-! # The nodes of a schema

Schemas stand in schemas at any depth: as properties, items, values of maps and alternatives. What
is said about every schema of a document is said about all of these.
-/

namespace ServiceContract.Schema

/-- The schemas that stand directly in a schema. -/
def children (s : Schema) : List Schema :=
  (s.properties.getD []).map Prod.snd ++ s.items.toList ++ s.additionalProperties.toList ++
    s.allOf.getD [] ++ s.oneOf.getD []

/-- A schema is a schema or stands in it at some depth. -/
inductive Node : Schema → Schema → Prop
  | self (s) : Node s s
  | child {n c s} : c ∈ s.children → Node n c → Node n s

/-- Every schema that stands in a schema, itself included, is as described. -/
def Every (P : Schema → Prop) (s : Schema) : Prop := ∀ n, Node n s → P n

variable {P Q : Schema → Prop} {s c : Schema}

theorem every_iff : Every P s ↔ P s ∧ ∀ c ∈ s.children, Every P c := by
  constructor
  · exact fun h => ⟨h s (.self s), fun c hc n hn => h n (.child hc hn)⟩
  · rintro ⟨hs, hc⟩ n (_ | ⟨hm, hn⟩)
    · exact hs
    · exact hc _ hm n hn

theorem Every.imp (h : Every P s) (hpq : ∀ n, P n → Q n) : Every Q s := fun n hn => hpq n (h n hn)

theorem Every.of_mem_children (h : Every P s) (hc : c ∈ s.children) : Every P c :=
  (every_iff.mp h).2 c hc

/-- Schemas with the same schemas inside differ only in what they say themselves. -/
theorem Every.of_children_eq {s' : Schema} (h : Every P s) (hs : P s')
    (hc : s'.children = s.children) : Every P s' :=
  every_iff.mpr ⟨hs, hc ▸ (every_iff.mp h).2⟩

theorem mem_children : c ∈ s.children ↔
    (∃ ps, s.properties = some ps ∧ ∃ k, (k, c) ∈ ps) ∨ s.items = some c ∨
      s.additionalProperties = some c ∨ (∃ cs, s.allOf = some cs ∧ c ∈ cs) ∨
      ∃ cs, s.oneOf = some cs ∧ c ∈ cs := by
  unfold children
  cases s.properties <;> cases s.allOf <;> cases s.oneOf <;> simp [Option.mem_toList]

theorem sizeOf_lt_of_mem_children (h : c ∈ s.children) : sizeOf c < sizeOf s := by
  cases s
  rcases mem_children.mp h with ⟨ps, hps, k, hk⟩ | hi | hap | ⟨cs, hal, hc⟩ | ⟨cs, hon, hc⟩
  · subst hps
    have := List.sizeOf_lt_of_mem hk
    simp only [mk.sizeOf_spec, Prod.mk.sizeOf_spec, Option.some.sizeOf_spec] at this ⊢
    omega
  · subst hi
    simp only [mk.sizeOf_spec, Option.some.sizeOf_spec]
    omega
  · subst hap
    simp only [mk.sizeOf_spec, Option.some.sizeOf_spec]
    omega
  · subst hal
    have := List.sizeOf_lt_of_mem hc
    simp only [mk.sizeOf_spec, Option.some.sizeOf_spec]
    omega
  · subst hon
    have := List.sizeOf_lt_of_mem hc
    simp only [mk.sizeOf_spec, Option.some.sizeOf_spec]
    omega

/-- Induction on the depth at which schemas stand in a schema. -/
theorem induction_children {P : Schema → Prop} (h : ∀ s, (∀ c ∈ s.children, P c) → P s)
    (s : Schema) :
    P s :=
  h s fun c hc =>
    have := sizeOf_lt_of_mem_children hc
    induction_children h c
termination_by sizeOf s

section Operations

variable {text : Option String} {members : List EnumMember}

@[simp] theorem children_withDescription : (s.withDescription text).children = s.children := by
  cases text <;> rfl

@[simp] theorem reference_withDescription : (s.withDescription text).reference = s.reference := by
  cases text <;> rfl

@[simp] theorem children_enumerate : (s.enumerate members).children = s.children := by
  unfold enumerate
  dsimp only
  split <;> rfl

@[simp] theorem reference_enumerate : (s.enumerate members).reference = s.reference := by
  unfold enumerate
  dsimp only
  split <;> rfl

@[simp] theorem default_enumerate : (s.enumerate members).default = s.default := by
  unfold enumerate
  dsimp only
  split <;> rfl

theorem decorated_withExtension {key : String} {value : Json} :
    (s.withExtension key value).decorated = true := by
  have hne : (insertSorted key value s.extensions).isEmpty = false := by
    cases he : insertSorted key value s.extensions with
    | nil =>
      have hl : (insertSorted key value s.extensions).lookup key = some value := by
        rw [lookup_insertSorted, if_pos rfl]
      simp [he] at hl
    | cons _ _ => rfl
  simp [decorated, withExtension, hne]

theorem settle_of_reference_eq_none (h : s.reference = none) : s.settle = s := by
  simp [settle, h]

/-- What is said about a reference goes to an enclosing schema. -/
theorem settle_of_decorated {r : String} (hr : s.reference = some r) (hd : s.decorated = true) :
    s.settle = { allOf := some [{ reference := some r }], description := s.description,
                 default := s.default, extensions := s.extensions } := by
  simp [settle, hr, hd]

/-- No schema stands in a settled one that did not stand in it before, but for a reference. -/
theorem Every.settle (h : Every P s) (hs : P s.settle) (href : ∀ r, P { reference := r }) :
    Every P s.settle := by
  refine every_iff.mpr ⟨hs, ?_⟩
  unfold Schema.settle
  split
  · simpa [children] using every_iff.mpr ⟨href s.reference, by simp [children]⟩
  · exact (every_iff.mp h).2

end Operations

end ServiceContract.Schema
