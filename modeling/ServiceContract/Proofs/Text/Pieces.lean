import ServiceContract.Text.Basic

/-! # Pieces of texts

No piece has a separator inside. Splitting undoes joining, and two texts with a separator between
them have the pieces of the first and then those of the second. What is left of a text after a word
at its front is what the word has been put before.
-/

namespace ServiceContract.Text

variable {p : Char → Bool} {c : Char} {s t : String} {parts : List String}

theorem pieces_eq_splitOnP (p : Char → Bool) (cs : List Char) : pieces p cs = cs.splitOnP p := by
  induction cs with
  | nil => rfl
  | cons c cs ih =>
    rw [pieces, ih, List.splitOnP_cons_eq_if_modifyHead]
    cases h : cs.splitOnP p with
    | nil => exact absurd h (List.splitOnP_ne_nil p cs)
    | cons w ws => rfl

theorem splitOn_eq_map (c : Char) (s : String) :
    splitOn c s = (s.toList.splitOn c).map String.ofList := by
  rw [splitOn, pieces_eq_splitOnP, List.splitOn_eq_splitOnP]

theorem not_of_mem_pieces {cs w : List Char} (hw : w ∈ pieces p cs) : ∀ b ∈ w, p b = false := by
  induction cs generalizing w with
  | nil =>
    obtain rfl := List.mem_singleton.mp hw
    exact nofun
  | cons c cs ih =>
    cases h : pieces p cs with
    | nil =>
      rw [pieces_eq_splitOnP] at h
      exact absurd h (List.splitOnP_ne_nil p cs)
    | cons v vs =>
      rw [pieces, h] at hw
      rw [h] at ih
      dsimp only at hw
      split at hw
      · rcases List.mem_cons.mp hw with rfl | hw
        · exact nofun
        · exact ih hw
      · next hc =>
        rcases List.mem_cons.mp hw with rfl | hw
        · exact List.forall_mem_cons.mpr ⟨Bool.eq_false_iff.mpr hc, ih List.mem_cons_self⟩
        · exact ih (List.mem_cons_of_mem _ hw)

theorem not_mem_of_mem_splitOn (h : s ∈ splitOn c t) : c ∉ s.toList := by
  obtain ⟨w, hw, rfl⟩ := List.mem_map.mp h
  rw [String.toList_ofList]
  exact fun hc => by simpa using not_of_mem_pieces hw c hc

theorem splitOn_append : splitOn c (s ++ String.singleton c ++ t) = splitOn c s ++ splitOn c t := by
  have h : (s ++ String.singleton c ++ t).toList = s.toList ++ c :: t.toList := by simp
  simp only [splitOn_eq_map]
  rw [h, List.splitOn_append_cons_self, List.map_append]

theorem splitOn_join (hne : parts ≠ []) (hc : ∀ s ∈ parts, c ∉ s.toList) :
    splitOn c (join (String.singleton c) parts) = parts := by
  have h : (join (String.singleton c) parts).toList =
      [c].intercalate (parts.map String.toList) := by
    rw [join, String.toList_intercalate, String.toList_singleton]
  rw [splitOn_eq_map, h,
    List.splitOn_intercalate c (List.forall_mem_map.mpr hc) (by simpa using hne)]
  simp [Function.comp_def]

theorem dropPrefix?_eq_some_iff {w cs rest : List Char} :
    dropPrefix? w cs = some rest ↔ cs = w ++ rest := by
  induction w generalizing cs with
  | nil => simp [dropPrefix?]
  | cons c w ih =>
    cases cs with
    | nil => simp [dropPrefix?]
    | cons d cs =>
      by_cases h : c = d
      · simp [dropPrefix?, h, ih]
      · simp [dropPrefix?, h, Ne.symm h]

theorem stripPrefix?_eq_some_iff {w s rest : String} :
    stripPrefix? w s = some rest ↔ s = w ++ rest := by
  constructor
  · intro h
    obtain ⟨cs, hcs, rfl⟩ := Option.map_eq_some_iff.mp h
    refine String.toList_inj.mp ?_
    rw [dropPrefix?_eq_some_iff.mp hcs]
    simp
  · rintro rfl
    refine Option.map_eq_some_iff.mpr ⟨rest.toList, dropPrefix?_eq_some_iff.mpr ?_, by simp⟩
    exact String.toList_append

end ServiceContract.Text
