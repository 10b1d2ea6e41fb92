import ServiceContract.Proofs.Schema.Enumerated
import ServiceContract.Proofs.Schema.Expansions
import ServiceContract.Proofs.Schema.NodeRules

/-! # Labels stand beside values

Wherever a schema in a component has labels, they are those of the variants of an enum or of the
constants of a type, and the values stand beside them in the same order. There is one exception:
the component of a newtype whose field is a use of a component itself encloses the reference, and
has the labels without the values.
-/

namespace ServiceContract

open Source TypeCompiler SchemaTable Work

namespace Schema

variable {p : Program} {s s' : Schema}

/-- If a schema has labels, it shows the members that they belong to. -/
def Labelled (p : Program) (s : Schema) : Prop :=
  s.labels? ≠ none → ∃ members, p.Lists members ∧ s.Shows members

theorem Labelled.congr (h : s.Labelled p) (hl : s'.labels? = s.labels?)
    (hv : s'.values = s.values) (ha : s'.allOf = s.allOf) : s'.Labelled p := by
  intro hs
  obtain ⟨members, hm, hlabels, hvalues⟩ := h (hl ▸ hs)
  exact ⟨members, hm, hl.trans hlabels, by rwa [hv, ha]⟩

theorem every_labelled_settle (h : Every (Labelled p) s) : Every (Labelled p) s.settle := by
  refine h.settle (fun hl => ?_) fun _ hl => absurd rfl hl
  obtain ⟨members, hm, hs⟩ := h s (.self s) (labels?_settle (s := s) ▸ hl)
  exact ⟨members, hm, hs.settle⟩

/-- Labels are only put where the values have been put, and what is said further about a schema
leaves both as they are, or puts them around a reference. -/
theorem nodeRules_labelled (p : Program) : NodeRules p (Labelled p) (Every (Labelled p)) where
  fresh h := fun hl => absurd (by rw [labels?, h.extensions]; rfl) hl
  said h := h
  described _ h := h.of_children_eq ((h _ (.self _)).congr rfl rfl rfl) rfl
  extended hk _ h := by
    have hother : ∀ k ∈ remarkKeys, k ≠ labelsKey := by decide
    exact h.of_children_eq ((h _ (.self _)).congr (labels?_withExtension (hother _ hk)) rfl rfl) rfl
  enumerated {s members} hm hlabel h := by
    refine h.of_children_eq (fun hl => ?_) children_enumerate
    cases ha : members.any (·.label.isSome) with
    | true => exact ⟨members, hm, labels?_enumerate ha, .inl values_enumerate⟩
    | false =>
      have hs : Fresh s := hlabel.resolve_right (by simp [ha])
      rw [enumerate_of_no_label ha, labels?, hs.extensions] at hl
      exact absurd rfl hl
  settled := every_labelled_settle
  undescribed h := h.of_children_eq ((h _ (.self _)).congr rfl rfl rfl) rfl

end Schema

open Schema

/-- The description of a declaration keeps what the compiler keeps. -/
theorem CompileRules.expansionOf {p : Program} {E : Effects SchemaTable}
    {Good : SchemaTable → Schema → Prop} {Parts : SchemaTable → ObjectParts → Prop}
    (rules : CompileRules p E Good Parts) {d : TypeDecl} (hd : d ∈ p.types)
    (args : List TypeExpr) (n : Nat) (t : SchemaTable) :
    Meets E (expansionOf p (TypeCompiler.within p n) d args) t Good := by
  cases d with
  | struct d => exact rules.structOf (rules.within n) d
  | enum e => exact rules.enumOf (rules.within n) (Program.mem_enums_of_mem_types hd)
  | typeAlias a => exact rules.schemaOf (rules.within n) _

theorem compileRules_labelled (p : Program) : CompileRules p anyEffects
    (fun _ => Every (Labelled p)) (fun _ => ObjectParts.Every (Labelled p)) := by
  have href (name : String) : Every (Labelled p) (.ref name) :=
    every_iff.mpr ⟨fun hl => absurd rfl hl, by simp [Schema.ref, children]⟩
  exact
    { schemas := fun _ => (nodeRules_labelled p).schemaRules
      mono := fun _ h => h
      mono_parts := fun _ h => h
      known := fun _ => href _
      component := fun _ _ _ _ _ => ⟨trivial, href _⟩
      component_fails := fun _ _ _ _ => trivial
      endless := fun _ _ => trivial
      unknown := fun _ _ _ _ => trivial
      mapKey := fun _ _ _ => trivial }

namespace SchemaTable

variable {p : Program} {key : String} {c : Definition} {s : Schema}

/-- Wherever a schema in a component has labels, they are those of the variants of a declared enum
or of the constants of a type, and the values are listed beside them in the same order, unless the
schema encloses a reference. A component is that of a declaration. If that is a newtype whose type
has constants with a label among them, then the component lists the labels of all these constants;
it lists their values too, exactly if the type of the field is no use of a component. -/
theorem labels_shown (p : Program) (calls : List SchemaCall)
    (hc : (after p {} calls).definition? key = some c) (hs : c.schema = some s)
    (hkey : ∀ name, key ≠ builtinKey name) :
    (∀ n, Node n s → n.labels? ≠ none → ∃ members, p.Lists members ∧ n.Shows members) ∧
      ∃ d args, d ∈ p.types ∧ d.key args = key ∧
        ∀ type members, d.newtype? = some type →
          EnumMember.ofConstants p d.name = some members →
          let x : Occurrence := ⟨(d.substitution args).apply type, d.module⟩
          s.labels? = some (EnumMember.labels members) ∧
            (¬ p.Refers x → s.values = some (EnumMember.values members)) ∧
            (p.Refers x → s.values = none ∧ ∃ r, s.allOf = some [{ reference := some r }]) := by
  obtain ⟨d, args, n, s₀, ⟨path, module, hd⟩, -, hdkey, hs₀, hr⟩ :=
    allExpanded_after p calls key c hc (by simp [hs]) hkey
  obtain rfl : s = described p d s₀ := Option.some.inj (hs.symm.trans hs₀)
  have hmem : d ∈ p.types := Program.mem_types_of_findType hd
  refine ⟨?_, d, args, hmem, hdkey, fun type members hnew hconst => ?_⟩
  · have hlabelled := ((compileRules_labelled p).expansionOf hmem args n _).ok hr
    exact (nodeRules_labelled p).ofType d hlabelled.2
  · have hplace := (inPlace_expansionOf (describesInPlace_within p n) hnew args).ok hr
    exact described_inPlace hplace.2 hconst

section Programs

/-- A line of documentation. -/
def docLine (text : String) : Attr := ⟨{ segments := ["doc"] }, .value (.lit (.str text))⟩

/-- A struct with one unnamed field. -/
def newtype (name field : String) : Declared StructItem :=
  ⟨[], [], name, [], .unnamed [⟨[], true, none, .path [field] []⟩]⟩

/-- Two newtypes with a labelled constant each, over a number and over a struct. -/
def levels : Program where
  structs := [⟨[], [], "Base", [], .named [⟨[], true, some "raw", .path ["u8"] []⟩]⟩,
    newtype "Grade" "u8", newtype "Level" "Base"]
  consts := [
    ⟨[], none, [docLine "enough"], "PASS", .path ["Grade"] [],
      .call (.path { segments := ["Grade"] } []) [.lit (.int false 4)]⟩,
    ⟨[], none, [docLine "low"], "LOW", .path ["Level"] [],
      .call (.path { segments := ["Level"] } [])
        [.call (.path { segments := ["Base", "new"] } []) [.lit (.int false 1)]]⟩]

/-- The component of a newtype over a number lists the value beside the label. -/
theorem labels_shown_grade :
    let t := after levels {} [.type (.path ["Grade"] []) []]
    ∃ s, t.definition? "Grade" = some ⟨"Grade", some s⟩ ∧
      s.labels? = some (.arr [.str "enough"]) ∧ s.values = some [.ofInt 4] ∧
      ∀ n, Node n s → n.labels? ≠ none → ∃ members, levels.Lists members ∧ n.Shows members := by
  intro t
  refine ⟨_, rfl, eq_of_beq (by decide +kernel), eq_of_beq (by decide +kernel), ?_⟩
  have hc : t.definition? "Grade" = some ⟨"Grade", some _⟩ := rfl
  exact (labels_shown levels _ hc rfl (ne_builtinKey (by decide))).1

/-- The component of a newtype over a struct lists the label and not the value. -/
theorem labels_without_values :
    let r := (levels.compileType (.path ["Level"] []) []).runOn {}
    r.1 = .ok (.ref "Level") ∧
      (EnumMember.ofConstants levels "Level").map EnumMember.values = some [.ofInt 1] ∧
      ∃ s, r.2.definition? "Level" = some ⟨"Level", some s⟩ ∧
        s.labels? = some (.arr [.str "low"]) ∧ s.values = none :=
  ⟨rfl, eq_of_beq (by decide +kernel), _, rfl, eq_of_beq (by decide +kernel), by decide +kernel⟩

end Programs

end SchemaTable

end ServiceContract
