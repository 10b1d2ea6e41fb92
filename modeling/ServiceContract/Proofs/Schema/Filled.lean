import ServiceContract.Proofs.Schema.Inside

/-! # Lists inside schemas

A list of parts, of alternatives or of values that is empty is no schema, and neither is a list
without items. A component has such a list inside only if its declaration leaves nothing to choose
from.
-/

namespace ServiceContract

open Source TypeCompiler SchemaTable

namespace Schema

/-- A schema that lists parts has some, and an array says what its items are. -/
structure Whole (s : Schema) : Prop where
  allOf : s.allOf ≠ some []
  items : s.type = some "array" → s.items.isSome

/-- A schema that lists alternatives or values has some. -/
structure Choosable (s : Schema) : Prop where
  oneOf : s.oneOf ≠ some []
  values : s.values ≠ some []

variable {s : Schema}

theorem Bare.whole (h : s.Bare) : s.Whole := ⟨h.allOf, h.items⟩

theorem Bare.choosable (h : s.Bare) : s.Choosable := ⟨h.oneOf, by simp [h.values]⟩

end Schema

@[simp] theorem EnumMember.values_eq_nil {members : List EnumMember} :
    EnumMember.values members = [] ↔ members = [] := by
  rw [EnumMember.values, List.map_eq_nil_iff, ← List.length_eq_zero_iff, List.length_mergeSort,
    List.length_eq_zero_iff]

open Schema

/-- A declaration that leaves nothing to choose from: an enum without a variant that is serialized,
or an empty list of unnamed fields. -/
def TypeDecl.Hollow (d : TypeDecl) : Prop :=
  .unnamed [] ∈ d.bodies ∨ ∃ e, d = .enum e ∧ e.item.kept = []

namespace TypeDecl

theorem hollow_struct {d : Declared StructItem} :
    (TypeDecl.struct d).Hollow ↔ d.item.fields = .unnamed [] := by
  simpa [Hollow, bodies] using eq_comm

theorem hollow_enum {e : Declared EnumItem} :
    (TypeDecl.enum e).Hollow ↔ (∃ v ∈ e.item.kept, v.fields = .unnamed []) ∨ e.item.kept = [] := by
  simp [Hollow, bodies]

theorem not_hollow_typeAlias {a : Declared AliasItem} : ¬ (TypeDecl.typeAlias a).Hollow := by
  simp [Hollow, bodies]

end TypeDecl

namespace Surroundings

variable {x : Surroundings} {container : SerialAttrs} {v : Variant} {d : TypeDecl} {p : Program}
  {s : Schema}

theorem inside_whole (full : Prop) : Inside fun n => n.Whole ∧ (full → n.Choosable) where
  bare _ h := ⟨h.whole, fun _ => h.choosable⟩
  name _ := ⟨⟨by simp [oneText, typed], by simp [oneText, typed]⟩,
    fun _ => ⟨by simp [oneText, typed], by simp [oneText]⟩⟩
  parts ss hne := ⟨⟨by simpa using hne, by simp⟩, fun _ => ⟨by simp, by simp⟩⟩
  description n text h := by
    cases text with
    | none => exact h
    | some text => exact ⟨⟨h.1.allOf, h.1.items⟩, fun hf => ⟨(h.2 hf).oneOf, (h.2 hf).values⟩⟩

theorem Shape.whole (h : x.Shape d s) :
    Every (fun n => n.Whole ∧ (¬ d.Hollow → n.Choosable)) s := by
  refine h.every (inside_whole _) (fun given _ => ?_) (fun hempty => ?_) (fun e members hd hm => ?_)
    fun e entries hd hlength => ?_
  · simp only [objectWith, Schema.object]
    exact ⟨⟨by simp, by simp⟩, fun _ => ⟨by simp, by simp⟩⟩
  · exact ⟨⟨by simp, by simp⟩, fun hh => absurd (.inl hempty) hh⟩
  · obtain ⟨_, _, henum⟩ := enumerate_eq members (typed "string")
    rw [henum]
    refine ⟨⟨by simp [typed], by simp [typed]⟩, fun hh => ⟨by simp [typed], ?_⟩⟩
    have hkept : e.item.kept ≠ [] := fun hk => hh (.inr ⟨e, hd, hk⟩)
    have hvalues := EnumMember.map_value_of_ofVariants hm
    rintro hnil
    obtain rfl : members = [] := by simpa using hnil
    exact hkept (by simpa using hvalues.symm)
  · refine ⟨⟨by simp, by simp⟩, fun hh => ⟨fun hnil => hh (.inr ⟨e, hd, ?_⟩), by simp⟩⟩
    rw [Option.some.inj hnil] at hlength
    exact List.length_eq_zero_iff.mp hlength.symm

/-- What a description adds leaves no list empty. -/
theorem every_whole_described {full : Prop}
    (h : Every (fun n => n.Whole ∧ (full → n.Choosable)) s) :
    Every (fun n => n.Whole ∧ (full → n.Choosable)) (described p d s) := by
  refine every_described h ?_ fun r =>
    ⟨(bare_reference r).whole, fun _ => (bare_reference r).choosable⟩
  obtain ⟨hwhole, hchoose⟩ := h s (.self s)
  cases hr : s.reference with
  | none =>
    obtain ⟨_, values, _, hd, hvalues⟩ := described_eq (p := p) (d := d) hr
    rw [hd]
    refine ⟨⟨hwhole.allOf, hwhole.items⟩, fun hf => ⟨(hchoose hf).oneOf, ?_⟩⟩
    rcases hvalues with rfl | ⟨-, -, members, hne, rfl⟩
    · exact (hchoose hf).values
    · simpa using hne
  | some r =>
    obtain ⟨_, _, _, hd⟩ := described_reference (p := p) (d := d) hr
    rw [hd]
    exact ⟨⟨by simp, by simp⟩, fun _ => ⟨by simp, by simp⟩⟩

theorem not_every_choosable_tuple : ¬ Every Choosable (.tuple []) := by
  intro h
  have hitem : ({ oneOf := some [] } : Schema) ∈ (tuple []).children := by
    simp [tuple, distinct, Schema.array, children]
  exact (h _ (.child hitem (.self _))).oneOf rfl

theorem Body.eq_tuple (h : x.Body container (.unnamed []) s) : s = .tuple [] := by
  cases h with
  | tuple _ hlength => rw [List.length_eq_zero_iff.mp hlength]

/-- A variant with an empty list of unnamed fields has the empty tuple inside. -/
theorem Entry.not_every_choosable (h : x.Entry container v s) (hv : v.fields = .unnamed []) :
    ¬ Every Choosable s := by
  intro hevery
  obtain ⟨payload, hp, rfl⟩ := h
  have payload_eq : payload = some (.tuple []) := by
    cases hp with
    | unit hu => cases hv.symm.trans hu
    | body hb =>
      rw [hv] at hb
      rw [hb.eq_tuple]
  subst payload_eq
  refine not_every_choosable_tuple (hevery.of_mem_children ?_)
  rw [children_withDescription]
  cases container.tag <;> simp [variantSchema, taggedVariant, tuple, Schema.object, Schema.array,
    children]

/-- A hollow declaration has an empty list inside. -/
theorem Shape.not_every_choosable (h : x.Shape d s) (hd : d.Hollow) :
    s.reference = none ∧ ¬ Every Choosable s := by
  cases h with
  | unit hf => cases hf.symm.trans (TypeDecl.hollow_struct.mp hd)
  | struct hb =>
    rw [TypeDecl.hollow_struct.mp hd] at hb
    rw [hb.eq_tuple]
    exact ⟨rfl, not_every_choosable_tuple⟩
  | @values e members hm =>
    refine ⟨reference_enumerate, fun hevery => (hevery _ (.self _)).values ?_⟩
    rcases TypeDecl.hollow_enum.mp hd with ⟨v, hv, hf⟩ | hkept
    · have hunit : v.fields.isUnit = false := by rw [hf]; rfl
      cases hm.symm.trans (EnumMember.ofVariants_eq_none.mpr
        (.inr ⟨v, List.mem_of_mem_filter hv, hunit⟩))
    · have hvalues := EnumMember.map_value_of_ofVariants hm
      simpa [hkept] using hvalues
  | @variants e entries hm hes =>
    refine ⟨rfl, fun hevery => ?_⟩
    rcases TypeDecl.hollow_enum.mp hd with ⟨v, hv, hf⟩ | hkept
    · have hentries : ∀ s ∈ entries, Every Choosable s := fun s hs =>
        hevery.of_mem_children (by simpa [children] using hs)
      have hflip : List.Forall₂ (fun s v => x.Entry _ v s) entries e.item.kept := .flip hes
      have hfields := ((List.forall₂_and_left _ _).mpr ⟨hentries, hflip⟩).imp
        fun s v h (hf : v.fields = .unnamed []) => h.2.not_every_choosable hf h.1
      exact Work.forall_mem_of_forall₂ hfields v hv hf
    · rw [hkept] at hes
      cases hes
      exact (hevery _ (.self _)).oneOf rfl
  | typeAlias hs => exact absurd hd TypeDecl.not_hollow_typeAlias

/-- A description fills no list that is empty, unless it drops the schema for a reference. -/
theorem every_choosable_of_described (hr : s.reference = none)
    (h : Every Choosable (described p d s)) : Every Choosable s := by
  obtain ⟨_, values, _, hd, hvalues⟩ := described_eq (p := p) (d := d) hr
  rw [hd] at h
  obtain ⟨hone, hvalue⟩ := h _ (.self _)
  refine h.of_children_eq ⟨hone, fun hs => hvalue ?_⟩ rfl
  rcases hvalues with rfl | ⟨hnone, -⟩
  · exact hs
  · cases hnone.symm.trans hs

end Surroundings

namespace SchemaTable

variable {p : Program} {calls : List SchemaCall} {type : TypeExpr} {module : List String}
  {answer : Schema} {T : SchemaTable}

/-- A type that compiles has a schema where no list is empty and every array has items. In a
component every list of parts has members and every array has items; and every list of alternatives
or values has members exactly if the declaration leaves something to choose from. -/
theorem filled_unless_hollow
    (hr : (p.compileType type module).runOn (after p {} calls) = (.ok answer, T)) :
    (Every Whole answer ∧ Every Choosable answer) ∧
      ∀ key c s, T.definition? key = some c → c.schema = some s →
        (∀ name, key ≠ builtinKey name) → ∃ d args, d ∈ p.types ∧ d.key args = key ∧
          Every Whole s ∧ (Every Choosable s ↔ ¬ d.Hollow) := by
  constructor
  · have hbare := ((p.places_compileField.schemaOf type).ok hr).2.every_bare
    exact ⟨hbare.imp fun _ => Bare.whole, hbare.imp fun _ => Bare.choosable⟩
  · intro key c s hc hs hkey
    obtain rfl : after p {} (calls ++ [.type type module]) = T := by
      have happend : after p {} (calls ++ [.type type module]) =
        (SchemaCall.type type module).next p (after p {} calls) := List.foldl_append
      rw [happend, SchemaCall.next, hr]
    obtain ⟨d, args, n, s₀, hd, hdkey, rfl, hshape⟩ := shape_of_component hc hs hkey
    have hevery := Surroundings.every_whole_described (p := p) (d := d) hshape.whole
    refine ⟨d, args, hd, hdkey, hevery.imp fun _ => And.left, fun h hh => ?_, fun hh => ?_⟩
    · obtain ⟨hr, hnot⟩ := hshape.not_every_choosable hh
      exact hnot (Surroundings.every_choosable_of_described hr h)
    · exact hevery.imp fun _ h => h.2 hh

theorem filled_namesakes :
    let r := (namesakes.compileType (.path ["User"] []) ["a"]).runOn {}
    ∃ c s, r.2.definition? "a::User" = some c ∧ c.schema = some s ∧ Every Whole s ∧
      Every Choosable s := by
  intro r
  have hr : (namesakes.compileType (.path ["User"] []) ["a"]).runOn (after namesakes {} []) =
    (.ok (.ref "User"), r.2) := rfl
  obtain ⟨-, components⟩ := filled_unless_hollow hr
  obtain ⟨d, args, hd, -, hwhole, hchoose⟩ :=
    components "a::User" ⟨"User", some _⟩ _ rfl rfl (ne_builtinKey (by decide))
  refine ⟨_, _, rfl, rfl, hwhole, hchoose.mpr ?_⟩
  rintro (hmem | ⟨e, rfl, -⟩)
  · rcases List.mem_pair.mp hd with rfl | rfl <;> cases List.mem_singleton.mp hmem
  · simp [Program.types, namesakes] at hd

/-- An enum without variants, one whose only variant is skipped, and a struct with an empty list of
unnamed fields, as the fields of a struct. -/
def hollows : Program where
  structs := [⟨[], [], "Nothing", [], .unnamed []⟩, ⟨[], [], "All", [], .named [
    ⟨[], true, some "never", .path ["Never"] []⟩, ⟨[], true, some "hidden", .path ["Hidden"] []⟩,
    ⟨[], true, some "nothing", .path ["Nothing"] []⟩]⟩]
  enums := [⟨[], [], "Never", [], []⟩, ⟨[], [], "Hidden", [],
    [⟨[⟨{ segments := ["serde"] }, .list [.ident "skip"]⟩], "A", .unit, none⟩]⟩]

theorem empty_in_hollows :
    let r := (hollows.compileType (.path ["All"] []) []).runOn {}
    r.1 = .ok (.ref "All") ∧
      (∃ s, r.2.definition? "Never" = some ⟨"Never", some s⟩ ∧ s.oneOf = some []) ∧
      (∃ s, r.2.definition? "Hidden" = some ⟨"Hidden", some s⟩ ∧ s.values = some []) ∧
      ∃ s item, r.2.definition? "Nothing" = some ⟨"Nothing", some s⟩ ∧ s.items = some item ∧
        item.oneOf = some [] :=
  ⟨rfl, ⟨_, rfl, rfl⟩, ⟨_, rfl, eq_of_beq (by decide +kernel)⟩, ⟨_, _, rfl, rfl, rfl⟩⟩

end SchemaTable

end ServiceContract
