import ServiceContract.Proofs.Json.Node
import ServiceContract.Proofs.Schema.Node

/-! # What an enumeration says

An enumeration lists the values of its members in their order. If one of them has a label, then it
lists the labels in the same order, with names in place of the missing ones, under a key of the
extensions.
-/

namespace ServiceContract

open Source

namespace EnumMember

/-- The values of members, in the order of the members. -/
def values (members : List EnumMember) : List Json := (members.mergeSort le).map (·.value)

/-- The labels of members, in the order of the members; the name stands for a missing label. -/
def labels (members : List EnumMember) : Json :=
  .arr ((members.mergeSort le).map fun m => .str (m.label.getD m.name))

/-- The lines of the labelled members, in the order of the members. -/
def lines (members : List EnumMember) : String :=
  Text.join "\n" ((members.mergeSort le).filterMap line?)

variable {p : Program} {members : List EnumMember} {m : EnumMember} {type : String}

/-- Members that stand in their order are listed as they stand. -/
theorem values_of_pairwise (h : members.Pairwise fun a b => le a b) :
    values members = members.map (·.value) ∧
      labels members = .arr (members.map fun m => .str (m.label.getD m.name)) := by
  rw [values, labels, List.mergeSort_of_pairwise h]
  exact ⟨rfl, rfl⟩

theorem distinct_of_ofVariants {scope : Scope} {item : EnumItem}
    (h : ofVariants scope item = some members) (hm : m ∈ members) : m.value.Distinct := by
  unfold ofVariants at h
  dsimp only at h
  split at h
  · cases h
  · cases h
    obtain ⟨_, -, rfl⟩ := List.mem_map.mp hm
    simp [Json.KeysDistinct]

theorem distinct_of_ofConst {c : ConstDecl} (h : ofConst p type c = some m) :
    m.value.Distinct := by
  unfold ofConst at h
  dsimp only at h
  split at h
  · cases h
    simp [Json.KeysDistinct, Json.ofInt]
  · cases h
    simp [Json.KeysDistinct]
  · cases h

/-- The constants of a type are only listed if one of them has a label. -/
theorem ofConstants_eq_some : ofConstants p type = some members ↔
    (p.constsOfType type).filterMap (ofConst p type) = members ∧
      members.any (·.label.isSome) = true := by
  unfold ofConstants
  dsimp only
  split <;> grind

end EnumMember

/-- The members that an enumeration may list: the variants of a declared enum, or the constants of
one type. -/
inductive Program.Lists (p : Program) : List EnumMember → Prop
  | variants {d : Declared EnumItem} {members} : d ∈ p.enums →
    EnumMember.ofVariants ⟨p, d.module, some d.item.name⟩ d.item = some members → p.Lists members
  | constants {type members} : EnumMember.ofConstants p type = some members → p.Lists members

theorem Program.Lists.distinct {p : Program} {members : List EnumMember} (h : p.Lists members) :
    ∀ m ∈ members, m.value.Distinct := by
  intro m hm
  cases h with
  | variants _ h => exact EnumMember.distinct_of_ofVariants h hm
  | constants h =>
    obtain ⟨rfl, -⟩ := EnumMember.ofConstants_eq_some.mp h
    obtain ⟨c, -, hc⟩ := List.mem_filterMap.mp hm
    exact EnumMember.distinct_of_ofConst hc

namespace Schema

/-- The labels of the values of a schema. -/
def labels? (s : Schema) : Option Json := s.extensions.lookup labelsKey

variable {s : Schema} {members : List EnumMember}

theorem labels?_withExtension {key : String} {value : Json} (h : key ≠ labelsKey) :
    (s.withExtension key value).labels? = s.labels? := by
  rw [labels?, withExtension, lookup_insertSorted, if_neg h.symm, labels?]

@[simp] theorem values_enumerate :
    (s.enumerate members).values = some (EnumMember.values members) := by
  unfold enumerate
  dsimp only
  split <;> rfl

/-- Besides the values, only the description and the extensions may change. -/
theorem enumerate_eq (members : List EnumMember) (s : Schema) : ∃ description extensions,
    s.enumerate members =
      { s with description := description, values := some (EnumMember.values members),
               extensions := extensions } := by
  unfold enumerate
  dsimp only
  split <;> exact ⟨_, _, rfl⟩

theorem enumerate_of_label (h : members.any (·.label.isSome) = true) :
    s.enumerate members =
      ({ s with values := some (EnumMember.values members) }.withExtension labelsKey
        (EnumMember.labels members)).withParagraph (EnumMember.lines members) := by
  obtain ⟨m, hm, hlabel⟩ := List.any_eq_true.mp h
  have hlabels : ((members.mergeSort EnumMember.le).all (·.label.isNone)) = false := by
    refine List.all_eq_false.mpr ⟨m, List.mem_mergeSort.mpr hm, ?_⟩
    simpa [Option.isSome_iff_ne_none] using hlabel
  unfold enumerate
  dsimp only
  rw [hlabels]
  rfl

theorem decorated_enumerate (h : members.any (·.label.isSome) = true) :
    (s.enumerate members).decorated = true := by
  rw [enumerate_of_label h]
  rfl

theorem enumerate_of_no_label (h : members.any (·.label.isSome) = false) :
    s.enumerate members = { s with values := some (EnumMember.values members) } := by
  have hlabels : ((members.mergeSort EnumMember.le).all (·.label.isNone)) = true := by
    refine List.all_eq_true.mpr fun m hm => ?_
    simpa using List.any_eq_false.mp h m (List.mem_mergeSort.mp hm)
  unfold enumerate
  dsimp only
  rw [hlabels]
  rfl

theorem labels?_enumerate (h : members.any (·.label.isSome) = true) :
    (s.enumerate members).labels? = some (EnumMember.labels members) := by
  rw [enumerate_of_label h, withParagraph, labels?, withExtension, lookup_insertSorted, if_pos rfl]

end Schema

end ServiceContract
