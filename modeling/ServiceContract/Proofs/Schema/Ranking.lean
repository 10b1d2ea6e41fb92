import ServiceContract.Proofs.Schema.Enumeration

/-! # The order of the members of an enumeration

Members are listed by rank, numbers before texts, and those of one rank by name. Members with
different names have just one such order, so it does not matter in which order they are declared.
The values, the labels and the lines of the description all follow it.
-/

namespace ServiceContract

theorem string_lt_or_eq_or_lt (a b : String) : a < b ∨ a = b ∨ b < a := by
  by_cases h : a < b
  · exact .inl h
  · by_cases h' : b < a
    · exact .inr (.inr h')
    · exact .inr (.inl (String.le_antisymm (String.not_lt.mp h') (String.not_lt.mp h)))

namespace Rank

/-- The order of ranks: numbers by value, texts by their characters, numbers before texts. -/
inductive Below : Rank → Rank → Prop
  | numbers {a b : Int} : a < b → Below (.int a) (.int b)
  | mixed {a : Int} {b : String} : Below (.int a) (.str b)
  | texts {a b : String} : a < b → Below (.str a) (.str b)

variable {a b c : Rank}

theorem lt_iff : a.lt b = true ↔ a.Below b := by
  constructor
  · intro h
    cases a <;> cases b <;> simp only [lt, decide_eq_true_eq, Bool.false_eq_true] at h
    · exact .numbers h
    · exact .mixed
    · exact .texts h
  · rintro (h | _ | h)
    · exact decide_eq_true h
    · rfl
    · exact decide_eq_true h

theorem Below.trans (h : a.Below b) (h' : b.Below c) : a.Below c := by
  cases h with
  | numbers h =>
    cases h' with
    | numbers h' => exact .numbers (Int.lt_trans h h')
    | mixed => exact .mixed
  | mixed => cases h'; exact .mixed
  | texts h =>
    cases h' with
    | texts h' => exact .texts (String.lt_trans h h')

theorem not_below_self : ¬ a.Below a := by
  rintro (h | _ | h)
  · exact Int.lt_irrefl _ h
  · exact String.lt_irrefl _ h

theorem below_or_eq_or_below (a b : Rank) : a.Below b ∨ a = b ∨ b.Below a := by
  match a, b with
  | .int a, .int b =>
    rcases Int.lt_trichotomy a b with h | rfl | h
    · exact .inl (.numbers h)
    · exact .inr (.inl rfl)
    · exact .inr (.inr (.numbers h))
  | .int _, .str _ => exact .inl .mixed
  | .str _, .int _ => exact .inr (.inr .mixed)
  | .str a, .str b =>
    rcases string_lt_or_eq_or_lt a b with h | rfl | h
    · exact .inl (.texts h)
    · exact .inr (.inl rfl)
    · exact .inr (.inr (.texts h))

end Rank

namespace EnumMember

/-- A member stands before another one by its rank, or by its name if the ranks are equal. -/
def Precedes (a b : EnumMember) : Prop := a.rank.Below b.rank ∨ a.rank = b.rank ∧ a.name < b.name

variable {a b c : EnumMember} {members others : List EnumMember}

theorem Precedes.trans (h : a.Precedes b) (h' : b.Precedes c) : a.Precedes c := by
  rcases h with h | ⟨hr, hn⟩ <;> rcases h' with h' | ⟨hr', hn'⟩
  · exact .inl (h.trans h')
  · exact .inl (hr' ▸ h)
  · exact .inl (hr ▸ h')
  · exact .inr ⟨hr.trans hr', String.lt_trans hn hn'⟩

theorem Precedes.asymm (h : a.Precedes b) : ¬ b.Precedes a := by
  intro h'
  rcases h.trans h' with h | ⟨-, h⟩
  · exact Rank.not_below_self h
  · exact String.lt_irrefl _ h

/-- What members are sorted by. -/
theorem le_iff : a.le b = true ↔ a.rank.Below b.rank ∨ a.rank = b.rank ∧ a.name ≤ b.name := by
  rw [le, Bool.or_eq_true, Rank.lt_iff, Bool.and_eq_true, beq_iff_eq, Bool.not_eq_true',
    decide_eq_false_iff_not, String.not_lt]

theorem le_trans (h : a.le b = true) (h' : b.le c = true) : a.le c = true := by
  rw [le_iff] at *
  rcases h with h | ⟨hr, hn⟩ <;> rcases h' with h' | ⟨hr', hn'⟩
  · exact .inl (h.trans h')
  · exact .inl (hr' ▸ h)
  · exact .inl (hr ▸ h')
  · exact .inr ⟨hr.trans hr', String.le_trans hn hn'⟩

theorem le_total (a b : EnumMember) : (a.le b || b.le a) = true := by
  rw [Bool.or_eq_true, le_iff, le_iff]
  rcases Rank.below_or_eq_or_below a.rank b.rank with hr | hr | hr
  · exact .inl (.inl hr)
  · exact (String.le_total a.name b.name).imp (fun hn => .inr ⟨hr, hn⟩)
      fun hn => .inr ⟨hr.symm, hn⟩
  · exact .inr (.inl hr)

theorem precedes_of_le (h : a.le b = true) (hn : a.name ≠ b.name) : a.Precedes b := by
  refine (le_iff.mp h).imp_right fun ⟨hr, hle⟩ => ⟨hr, ?_⟩
  rcases string_lt_or_eq_or_lt a.name b.name with hlt | heq | hlt
  · exact hlt
  · exact absurd heq hn
  · exact absurd hlt (String.not_lt.mpr hle)

/-- Members with different names are sorted strictly. -/
theorem pairwise_sorted (hn : (members.map (·.name)).Nodup) :
    (members.mergeSort le).Pairwise Precedes := by
  have hsorted : (members.mergeSort le).Pairwise fun a b => le a b = true := by
    refine List.pairwise_mergeSort ?_ le_total _
    exact fun _ _ _ => le_trans
  have hnames : (members.mergeSort le).Pairwise fun a b => a.name ≠ b.name := by
    have hperm := (List.mergeSort_perm members le).map (·.name)
    exact List.pairwise_map.mp (hperm.nodup_iff.mpr hn)
  exact hsorted.imp₂ (fun _ _ => precedes_of_le) hnames

/-- Members with different names are sorted into one list, in whatever order they come. -/
theorem sorted_eq_of_perm (hn : (members.map (·.name)).Nodup) (h : others.Perm members) :
    others.mergeSort le = members.mergeSort le := by
  have hothers : (others.map (·.name)).Nodup := (h.map (·.name)).nodup_iff.mpr hn
  have hperm : (others.mergeSort le).Perm (members.mergeSort le) :=
    (List.mergeSort_perm others le).trans (h.trans (List.mergeSort_perm members le).symm)
  exact hperm.eq_of_pairwise (fun _ _ _ _ hab hba => absurd hba hab.asymm)
    (pairwise_sorted hothers) (pairwise_sorted hn)

end EnumMember

namespace Schema

variable {members : List EnumMember}

/-- An enumeration of members with different names does not depend on the order in which they are
declared. It lists the value of each of them once, by rank and then by name. If one of them has a
label, then the labels are listed in the same order, a name in place of each missing one, and the
description ends with a line for each labelled member, again in this order. -/
theorem enumerate_listed (s : Schema) (hn : (members.map (·.name)).Nodup) :
    (∀ others : List EnumMember, others.Perm members →
        s.enumerate others = s.enumerate members) ∧
      ∃ listed : List EnumMember, listed.Perm members ∧ listed.Pairwise EnumMember.Precedes ∧
        s.enumerate members =
          if members.any (·.label.isSome) then
            let lines := Text.join "\n" (listed.filterMap fun m =>
              m.label.map fun label => "- " ++ m.name ++ ": " ++ label)
            { s with
              values := some (listed.map (·.value))
              extensions := insertSorted labelsKey
                (.arr (listed.map fun m => .str (m.label.getD m.name))) s.extensions
              description := some (match s.description with
                | some text => text ++ "\n\n" ++ lines
                | none => lines) }
          else { s with values := some (listed.map (·.value)) } := by
  refine ⟨fun others h => ?_, members.mergeSort EnumMember.le, List.mergeSort_perm _ _,
    EnumMember.pairwise_sorted hn, ?_⟩
  · unfold enumerate
    rw [EnumMember.sorted_eq_of_perm hn h]
  · cases hlabel : members.any (·.label.isSome) with
    | true =>
      rw [if_pos rfl, enumerate_of_label hlabel]
      rfl
    | false =>
      rw [if_neg Bool.false_ne_true, enumerate_of_no_label hlabel]
      rfl

/-- Three pets, of which the last two have one rank and the last one has no label. -/
def pets : List EnumMember :=
  [⟨"Ant", .str "ANT", .int 0, some "an ant"⟩, ⟨"Cat", .str "CAT", .int 1, some "a cat"⟩,
    ⟨"Dog", .str "DOG", .int 1, none⟩]

theorem enumerate_listed_pets :
    (pets.map (·.name)).Nodup ∧ ∀ others : List EnumMember, others.Perm pets →
      let s := { typed "string" with description := some "All pets." }.enumerate others
      s.values = some [.str "ANT", .str "CAT", .str "DOG"] ∧
        s.labels? = some (.arr [.str "an ant", .str "a cat", .str "Dog"]) ∧
        s.description = some "All pets.\n\n- Ant: an ant\n- Cat: a cat" := by
  have hn : (pets.map (·.name)).Nodup := by decide
  have hsorted : pets.Pairwise fun a b => EnumMember.le a b = true := by decide +kernel
  refine ⟨hn, fun others h => ?_⟩
  dsimp only
  rw [(enumerate_listed _ hn).1 others h, enumerate, List.mergeSort_of_pairwise hsorted]
  exact ⟨rfl, rfl, rfl⟩

end Schema

end ServiceContract
