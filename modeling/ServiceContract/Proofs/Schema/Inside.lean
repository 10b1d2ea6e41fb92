import ServiceContract.Proofs.Schema.Enumerated
import ServiceContract.Proofs.Schema.Shapes

/-! # The schemas inside a component

The schemas with properties inside a component are those that its declaration gives them: its own
fields, those of a variant, and what stands for the name of a variant. What is said about a type as
a whole changes none of the schemas inside.
-/

namespace ServiceContract

open Source TypeCompiler Schema

namespace TypeCompiler

variable {p : Program} {d : TypeDecl} {s : Schema}

/-- What is said about a type as a whole: a description, and the values of constants if nothing else
says which there are. -/
theorem described_said (p : Program) (d : TypeDecl) (s : Schema) : ∃ said, described p d s =
      (said.withExtension typeKey (.str d.name)).settle ∧
    ((∃ description, said = { s with description := description }) ∨
      s.values = none ∧ s.properties = none ∧ ∃ members description,
        members.any (·.label.isSome) = true ∧
          said = enumerate members { s with description := description }) := by
  by_cases hother : s.values.isSome ∨ s.properties.isSome ∨
    EnumMember.ofConstants p d.name = none
  · obtain ⟨description, hd⟩ := described_otherwise hother
    exact ⟨_, hd, .inl ⟨description, rfl⟩⟩
  · obtain ⟨hv, hp, hc⟩ : s.values = none ∧ s.properties = none ∧
      EnumMember.ofConstants p d.name ≠ none := by simpa using hother
    obtain ⟨members, hc⟩ := Option.ne_none_iff_exists'.mp hc
    obtain ⟨description, hd⟩ := described_constants hv hp hc
    have hlabel := (EnumMember.ofConstants_eq_some.mp hc).2
    exact ⟨_, hd, .inr ⟨hv, hp, members, description, hlabel, rfl⟩⟩

/-- A schema that is no reference stays as it is besides. -/
theorem described_eq (hr : s.reference = none) : ∃ description values extensions,
    described p d s =
      { s with description := description, values := values, extensions := extensions } ∧
      (values = s.values ∨ s.values = none ∧ s.properties = none ∧
        ∃ members, members ≠ [] ∧ values = some (EnumMember.values members)) := by
  obtain ⟨said, hd, ⟨description, rfl⟩ | ⟨hv, hp, members, description, hlabel, rfl⟩⟩ :=
    described_said p d s
  · rw [hd, Schema.settle_of_reference_eq_none]
    · exact ⟨_, _, _, rfl, .inl rfl⟩
    · exact hr
  · have hne : members ≠ [] := by
      rintro rfl
      cases hlabel
    rw [hd, Schema.enumerate_of_label hlabel, Schema.settle_of_reference_eq_none]
    · exact ⟨_, _, _, rfl, .inr ⟨hv, hp, members, hne, rfl⟩⟩
    · exact hr

/-- A reference is enclosed by what is said about the type. -/
theorem described_reference {r : String} (hr : s.reference = some r) :
    ∃ description default extensions, described p d s =
      { allOf := some [{ reference := some r }], description := description,
        default := default, extensions := extensions } := by
  obtain ⟨said, hd, hsaid⟩ := described_said p d s
  have hreference : (said.withExtension typeKey (.str d.name)).reference = some r := by
    obtain ⟨description, rfl⟩ | ⟨-, -, members, description, -, rfl⟩ := hsaid
    · exact hr
    · exact Schema.reference_enumerate.trans hr
  rw [hd, Schema.settle_of_decorated hreference Schema.decorated_withExtension]
  exact ⟨_, _, _, rfl⟩

end TypeCompiler

theorem Schema.every_described {P : Schema → Prop} {p : Program} {d : TypeDecl} {s : Schema}
    (h : Every P s) (hs : P (described p d s)) (href : ∀ r, P { reference := r }) :
    Every P (described p d s) := by
  cases hr : s.reference with
  | none =>
    obtain ⟨_, _, _, hd, -⟩ := described_eq (p := p) (d := d) hr
    exact h.of_children_eq hs (hd ▸ rfl)
  | some r =>
    obtain ⟨_, _, _, hd⟩ := described_reference (p := p) (d := d) hr
    refine every_iff.mpr ⟨hs, ?_⟩
    rw [hd]
    simpa [children] using every_iff.mpr ⟨href r, by simp [children]⟩

theorem Schema.every_objectWith {P : Schema → Prop} {given : List Property}
    (hs : P (objectWith given)) (h : ∀ g ∈ given, Every P g.schema) :
    Every P (objectWith given) := by
  refine every_iff.mpr ⟨hs, fun c hc => ?_⟩
  obtain ⟨k, hk⟩ : ∃ k, (k, c) ∈ Property.table given := by
    simpa [objectWith, Schema.object, children] using hc
  obtain ⟨g, hg, he⟩ := Property.exists_of_mem_table hk
  cases he
  exact h g hg

namespace Surroundings

variable {x : Surroundings} {container : SerialAttrs} {fields : Fields} {v : Variant} {d : TypeDecl}
  {s : Schema} {P : Schema → Prop}

theorem Compiles.every_bare {fields : List Field} {fs : List FieldSchema}
    (h : x.Compiles container fields fs) : ∀ g ∈ fs.map FieldSchema.property,
      Every Bare g.schema := by
  refine List.forall_mem_map.mpr (Work.forall_mem_of_forall₂ (List.Forall₂.imp ?_ h))
  exact fun field f hf => (places_within _ _).every_bare_fieldOf hf

theorem Payload.merges (h : x.Payload v (some s)) :
    (s.properties = none ∧ ∀ fields, ¬ v.Merges fields) ∨
      ∃ fields fs, v.Merges fields ∧ x.Compiles (.ofAttrs v.attrs) fields fs ∧
        s = objectWith (fs.map FieldSchema.property) := by
  cases h with
  | body hb =>
    generalize hv : v.fields = shape at hb
    have other (h : ∀ fields, shape = .named fields → ∃ field ∈ fields, isInlined field = true) :
        ∀ fields, ¬ v.Merges fields := by
      rintro fields ⟨hf, hin⟩
      obtain ⟨field, hmem, hfield⟩ := h fields (hv ▸ hf)
      simp [hin field hmem] at hfield
    cases hb with
    | newtype hs => exact .inl ⟨(hs.every_bare s (.self s)).properties, other (by simp)⟩
    | tuple _ _ _ => exact .inl ⟨rfl, other (by simp)⟩
    | object hin hfs => exact .inr ⟨_, _, ⟨hv, hin⟩, hfs, rfl⟩
    | combined hin _ _ _ => exact .inl ⟨rfl, other fun _ hf => Fields.named.inj hf ▸ hin⟩
    | binary hin => exact .inl ⟨rfl, other fun _ hf => Fields.named.inj hf ▸ hin⟩

/-- An object with the name of a variant stands alone, beside what the variant holds, or has the
fields of the variant too. -/
theorem Entry.tagged {t : String} (h : x.Entry container v s) (ht : container.tag = some t) :
    let tag : Property := ⟨t, .oneText (EnumMember.serializedName container v), true⟩
    ∃ s', s = s'.withDescription (Docs.ofAttrs v.attrs).text ∧
      (v.fields = .unit ∧ s' = objectWith [tag] ∨
        (∃ payload, x.Payload v (some payload) ∧ (∀ fields, ¬ v.Merges fields) ∧
          s' = { allOf := some [objectWith [tag], payload] }) ∨
        ∃ fields fs, v.Merges fields ∧ x.Compiles (.ofAttrs v.attrs) fields fs ∧
          s' = objectWith (tag :: fs.map FieldSchema.property)) := by
  obtain ⟨payload, hp, rfl⟩ := h
  rw [ht]
  refine ⟨_, rfl, ?_⟩
  cases payload with
  | none =>
    cases hp with
    | unit hv => exact .inl ⟨hv, rfl⟩
  | some s =>
    obtain ⟨hs, hm⟩ | ⟨fields, fs, hm, hfs, rfl⟩ := hp.merges
    · refine .inr (.inl ⟨s, hp, hm, ?_⟩)
      simp only [variantSchema, taggedVariant, hs]
      rfl
    · exact .inr (.inr ⟨fields, fs, hm, hfs, taggedVariant_objectWith _ _ _⟩)

/-- A property of the schemas that components are built of, which no description takes away. -/
structure Inside (P : Schema → Prop) : Prop where
  bare : ∀ n, Bare n → P n
  name : ∀ text, P (oneText text)
  parts : ∀ ss, ss ≠ [] → P { allOf := some ss }
  description : ∀ n text, P n → P (n.withDescription text)

section Every

variable (inside : Inside P)

include inside

theorem Inside.every_of_bare (h : Every Bare s) : Every P s := h.imp inside.bare

theorem Inside.allOf {ss : List Schema} (hne : ss ≠ []) (h : ∀ s ∈ ss, Every P s) :
    Every P { allOf := some ss } :=
  every_iff.mpr ⟨inside.parts ss hne, by simpa [children] using h⟩

theorem Inside.compiled {fields : List Field} {fs : List FieldSchema}
    (h : x.Compiles container fields fs) (hs : P (objectWith (fs.map FieldSchema.property))) :
    Every P (objectWith (fs.map FieldSchema.property)) :=
  every_objectWith hs fun g hg => inside.every_of_bare (h.every_bare g hg)

theorem Body.every (h : x.Body container fields s)
    (object : ∀ own fs, fields = .named own → x.Compiles container own fs →
      P (objectWith (fs.map FieldSchema.property)))
    (empty : fields = .unnamed [] → P { oneOf := some [] }) : Every P s := by
  cases h with
  | newtype hs => exact inside.every_of_bare hs.every_bare
  | @tuple fields ss hlength heq hss =>
    cases ss with
    | nil =>
      have hnil : fields = [] := List.length_eq_zero_iff.mp heq.symm
      exact every_tuple (by simp) (empty (hnil ▸ rfl))
        fun _ => inside.bare _ (.of_none rfl rfl rfl rfl fun _ => rfl)
    | cons s ss =>
      exact inside.every_of_bare (Placed.tuple (List.cons_ne_nil _ _) hss).every_bare
  | object _ hfs => exact inside.compiled hfs (object _ _ rfl hfs)
  | combined _ _ hparts hfs =>
    refine inside.allOf (by simp) (List.forall_mem_append.mpr ⟨fun s hs => ?_, ?_⟩)
    · exact inside.every_of_bare (hparts s hs).every_bare
    · exact List.forall_mem_singleton.mpr (inside.compiled hfs (object _ _ rfl hfs))
  | binary _ =>
    refine every_iff.mpr ⟨inside.bare _ (.of_none rfl rfl rfl rfl ?_), ?_⟩ <;>
      simp [Schema.binary, typed, withFormat, children]

theorem Payload.every (h : x.Payload v (some s))
    (object : ∀ given, x.VariantGives container v given → P (objectWith given))
    (empty : v.fields = .unnamed [] → P { oneOf := some [] }) : Every P s := by
  cases h with
  | body hb => exact hb.every inside (fun own fs hv hfs => object _ (.fields hv hfs)) empty

theorem Inside.every_withDescription (h : Every P s) (text : Option String) :
    Every P (s.withDescription text) :=
  h.of_children_eq (inside.description s text (h s (.self s))) children_withDescription

theorem Inside.oneText (text : String) : Every P (.oneText text) :=
  every_iff.mpr ⟨inside.name text, by simp [Schema.oneText, typed, children]⟩

theorem Entry.every (h : x.Entry container v s)
    (object : ∀ given, x.VariantGives container v given → P (objectWith given))
    (empty : v.fields = .unnamed [] → P { oneOf := some [] }) : Every P s := by
  cases ht : container.tag with
  | none =>
    obtain ⟨payload, hp, rfl⟩ := h
    rw [ht]
    refine inside.every_withDescription ?_ _
    cases payload with
    | none => exact inside.oneText _
    | some s =>
      exact every_objectWith (object _ (.name ht hp))
        (List.forall_mem_singleton.mpr (hp.every inside object empty))
  | some t =>
    obtain ⟨s', rfl, hs⟩ := h.tagged ht
    refine inside.every_withDescription ?_ _
    have htag := every_objectWith (object _ (.tag ht))
      (List.forall_mem_singleton.mpr (inside.oneText _))
    rcases hs with ⟨-, rfl⟩ | ⟨s, hp, -, rfl⟩ | ⟨own, fs, hv, hfs, rfl⟩
    · exact htag
    · refine inside.allOf (by simp) (List.forall_mem_cons.mpr ⟨htag, ?_⟩)
      exact List.forall_mem_singleton.mpr (hp.every inside object empty)
    · refine every_objectWith (object _ (.tagged ht hv.1 hfs)) (List.forall_mem_cons.mpr ⟨?_, ?_⟩)
      · exact inside.oneText _
      · exact fun g hg => inside.every_of_bare (hfs.every_bare g hg)

theorem Shape.every (h : x.Shape d s) (object : ∀ given, x.Gives d given → P (objectWith given))
    (empty : .unnamed [] ∈ d.bodies → P { oneOf := some [] })
    (values : ∀ e members, d = .enum e →
      EnumMember.ofVariants ⟨x.program, e.module, some e.item.name⟩ e.item = some members →
      P ((typed "string").enumerate members))
    (variants : ∀ e entries, d = .enum e → entries.length = e.item.kept.length →
      P { oneOf := some entries }) : Every P s := by
  cases h with
  | unit hd => exact every_objectWith (object _ (.unit hd)) (by simp)
  | struct hb =>
    exact hb.every inside (fun own fs hf hfs => object _ (.fields hf hfs))
      fun hf => empty (by simp [TypeDecl.bodies, hf])
  | values hm =>
    refine every_iff.mpr ⟨values _ _ rfl hm, ?_⟩
    rw [children_enumerate]
    simp [typed, children]
  | @variants e entries hm hes =>
    refine every_iff.mpr ⟨variants _ _ rfl hes.length_eq.symm, ?_⟩
    have hkept := (List.forall₂_and_left _ _).mpr ⟨fun v (hv : v ∈ e.item.kept) => hv, hes⟩
    have hevery : ∀ s ∈ entries, Every P s := Work.forall_mem_of_forall₂ (hkept.imp
      fun v s h => h.2.every inside (fun given hg => object _ (.variant h.1 hg))
        fun hf => empty (List.mem_map.mpr ⟨v, h.1, hf⟩))
    simpa [children] using hevery
  | typeAlias hs => exact inside.every_of_bare hs.every_bare

end Every

end Surroundings

end ServiceContract
