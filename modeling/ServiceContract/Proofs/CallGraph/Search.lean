import ServiceContract.Proofs.CallGraph.Walk
import Mathlib.Data.List.Nodup
import Mathlib.Logic.Relation
import Mathlib.Tactic.Tauto

/-! # Searches without a bound

The search for errors is bounded in depth. Its runs are described here by rules that know no
bound, and every run of a search with room for all functions that are not in the memo follows
these rules. So the bound is never met, and a search ends on every call graph.
-/

namespace ServiceContract.ErrorSearch

open StatusError (merge)
open Relation (ReflTransGen)

/-- From one memo to another, functions are asked one after the other and their answers merged.
The steps are those of the walk that answers them. -/
inductive Gathers (s : ErrorSearch) :
    Memo → List StatusError → List FnDecl → List Step → List StatusError → Memo → Prop
  | nil {m found} : Gathers s m found [] [] found m
  | known {m found g nested gs w found' m'} : m.lookup g.key = some nested →
      Gathers s m (merge found nested) gs w found' m' →
      Gathers s m found (g :: gs) w found' m'
  | fresh {m found g w nested m' gs w' found' m''} : m.lookup g.key = none →
      Gathers s (setKey g.key [] m) (merge [] (s.direct g)) (s.callees g) w nested m' →
      Gathers s (setKey g.key nested m') (merge found nested) gs w' found' m'' →
      Gathers s m found (g :: gs) (.enter g :: (w ++ .leave g :: w')) found' m''

/-- One function is asked: the steps of the walk, the answer and the memo after it. -/
inductive Answers (s : ErrorSearch) (m : Memo) (f : FnDecl) :
    List Step → List StatusError → Memo → Prop
  | known {answer} : m.lookup f.key = some answer → Answers s m f [] answer m
  | fresh {w answer m'} : m.lookup f.key = none →
      Gathers s (setKey f.key [] m) (merge [] (s.direct f)) (s.callees f) w answer m' →
      Answers s m f (.enter f :: (w ++ [.leave f])) answer (setKey f.key answer m')

variable {s : ErrorSearch} {m m' : Memo} {found found' : List StatusError} {gs : List FnDecl}
  {w : List Step} {f g : FnDecl} {k : String}

theorem Answers.gathers {answer : List StatusError} {m'' : Memo} {w' : List Step}
    (h : Answers s m f w answer m') (hg : Gathers s m' (merge found answer) gs w' found' m'') :
    Gathers s m found (f :: gs) (w ++ w') found' m'' := by
  cases h with
  | known hk => exact .known hk hg
  | fresh hk hc => simpa using Gathers.fresh hk hc hg

theorem Answers.gathers_singleton {answer : List StatusError} (h : Answers s m f w answer m')
    (found : List StatusError) : Gathers s m found [f] w (merge found answer) m' := by
  simpa using h.gathers (.nil : Gathers s m' (merge found answer) [] [] _ m')

theorem Gathers.append {found'' : List StatusError} {m'' : Memo} {gs' : List FnDecl}
    {w' : List Step} (h : Gathers s m found gs w found' m')
    (h' : Gathers s m' found' gs' w' found'' m'') :
    Gathers s m found (gs ++ gs') (w ++ w') found'' m'' := by
  induction h with
  | nil => exact h'
  | known hk _ ih => exact .known hk (ih h')
  | fresh hk hc _ _ ih' => simpa using Gathers.fresh hk hc (ih' h')

theorem Gathers.lookup_isSome (h : Gathers s m found gs w found' m')
    (hk : (m.lookup k).isSome) : (m'.lookup k).isSome := by
  induction h with
  | nil => exact hk
  | known _ _ ih => exact ih hk
  | fresh _ _ _ ih ih' =>
    exact ih' (isSome_lookup_setKey.mpr (.inr (ih (isSome_lookup_setKey.mpr (.inr hk)))))

theorem Gathers.lookup_eq_none (h : Gathers s m found gs w found' m')
    (hk : m'.lookup k = none) : m.lookup k = none := by
  by_contra hm
  have hs := h.lookup_isSome (Option.isSome_iff_ne_none.mpr hm)
  rw [hk] at hs
  cases hs

theorem Gathers.lookup_of_mem_left (h : Gathers s m found gs w found' m') (hg : g ∈ left w) :
    m.lookup g.key = none := by
  induction h with
  | nil => simp at hg
  | known _ _ ih => exact ih hg
  | fresh hk hc _ ih ih' =>
    simp only [left_enter, left_append, left_leave, List.mem_append, List.mem_cons] at hg
    rcases hg with hg | rfl | hg
    · exact (lookup_setKey_eq_none.mp (ih hg)).2
    · exact hk
    · have hn := (lookup_setKey_eq_none.mp (ih' hg)).2
      exact (lookup_setKey_eq_none.mp (hc.lookup_eq_none hn)).2

theorem Gathers.isSome_cases {k : String} (h : Gathers s m found gs w found' m')
    (hk : (m'.lookup k).isSome) : (m.lookup k).isSome ∨ k ∈ (left w).map (·.key) := by
  induction h with
  | nil => exact Or.inl hk
  | known _ _ ih => exact ih hk
  | fresh _ _ _ ih ih' =>
    simp only [left_enter, left_append, left_leave, List.map_append, List.map_cons, List.mem_append,
      List.mem_cons]
    rcases ih' hk with hk | hk
    · rcases isSome_lookup_setKey.mp hk with rfl | hk
      · exact Or.inr (Or.inr (Or.inl rfl))
      · rcases ih hk with hk | hk
        · exact (isSome_lookup_setKey.mp hk).elim (fun he => Or.inr (Or.inr (Or.inl he))) Or.inl
        · exact Or.inr (Or.inl hk)
    · exact Or.inr (Or.inr (Or.inr hk))

theorem Gathers.mem_left_iff (h : Gathers s m found gs w found' m') :
    f ∈ left w ↔ f ∈ entered w := by
  induction h with
  | nil => rfl
  | known _ _ ih => exact ih
  | fresh _ _ _ ih ih' =>
    simp only [left_enter, left_append, left_leave, entered_enter, entered_append, entered_leave,
      List.mem_append, List.mem_cons, ih, ih']
    tauto

theorem Gathers.reaches (h : Gathers s m found gs w found' m') (hf : f ∈ entered w) :
    ∃ g ∈ gs, ReflTransGen s.Calls g f := by
  induction h with
  | nil => cases hf
  | known _ _ ih =>
    obtain ⟨g, hg, hr⟩ := ih hf
    exact ⟨g, List.mem_cons_of_mem _ hg, hr⟩
  | @fresh _ _ c _ _ _ _ _ _ _ _ _ _ ih ih' =>
    simp only [entered_enter, entered_append, entered_leave, List.mem_cons, List.mem_append] at hf
    rcases hf with rfl | hf | hf
    · exact ⟨f, List.mem_cons_self, .refl⟩
    · obtain ⟨g, hg, hr⟩ := ih hf
      exact ⟨c, List.mem_cons_self, .head hg hr⟩
    · obtain ⟨g, hg, hr⟩ := ih' hf
      exact ⟨g, List.mem_cons_of_mem _ hg, hr⟩

theorem Gathers.entered_subset (h : Gathers s m found gs w found' m') (hgs : gs ⊆ s.program.fns) :
    entered w ⊆ s.program.fns := by
  intro f hf
  obtain ⟨g, hg, hr⟩ := h.reaches hf
  induction hr with
  | refl => exact hgs hg
  | tail _ hc _ => exact mem_fns_of_mem_callees hc

/-- A function that is in the memo after a run was there before it, or the run left it. -/
theorem Gathers.isSome_or_mem_left (h : Gathers s m found gs w found' m')
    (hk : (s.program.fns.map (·.key)).Nodup) (hgs : gs ⊆ s.program.fns) (hf : f ∈ s.program.fns)
    (hs : (m'.lookup f.key).isSome) : (m.lookup f.key).isSome ∨ f ∈ left w := by
  refine (h.isSome_cases hs).imp_right fun hw => ?_
  obtain ⟨g, hg, he⟩ := List.mem_map.mp hw
  have hg' := h.entered_subset hgs (h.mem_left_iff.mp hg)
  exact List.inj_on_of_nodup_map hk hg' hf he ▸ hg

theorem Gathers.lookup_of_mem (h : Gathers s m found gs w found' m') (hf : f ∈ gs) :
    (m'.lookup f.key).isSome := by
  induction h with
  | nil => cases hf
  | known hk hrest ih =>
    rcases List.mem_cons.mp hf with rfl | hf
    · exact hrest.lookup_isSome (by rw [hk]; rfl)
    · exact ih hf
  | fresh _ _ hrest _ ih' =>
    rcases List.mem_cons.mp hf with rfl | hf
    · exact hrest.lookup_isSome (isSome_lookup_setKey.mpr (.inl rfl))
    · exact ih' hf

/-- After a run the memo has whatever is called by the functions that it entered. -/
theorem Gathers.lookup_of_calls (h : Gathers s m found gs w found' m') (hf : f ∈ left w)
    (hc : s.Calls f g) : (m'.lookup g.key).isSome := by
  induction h with
  | nil => cases hf
  | known _ _ ih => exact ih hf
  | fresh _ hrun hrest ih ih' =>
    simp only [left_enter, left_append, left_leave, List.mem_append, List.mem_cons] at hf
    rcases hf with hf | rfl | hf
    · exact hrest.lookup_isSome (isSome_lookup_setKey.mpr (.inr (ih hf)))
    · exact hrest.lookup_isSome (isSome_lookup_setKey.mpr (.inr (hrun.lookup_of_mem hc)))
    · exact ih' hf

/-- The functions of the program that are not in the memo. -/
def unseen (s : ErrorSearch) (m : Memo) : List FnDecl :=
  s.program.fns.filter fun f => (m.lookup f.key).isNone

theorem unseen_setKey (found : List StatusError) :
    s.unseen (setKey k found m) = without k (s.unseen m) := by
  rw [unseen, unseen, without, List.filter_filter]
  refine List.filter_congr fun f _ => ?_
  rw [lookup_setKey]
  by_cases h : f.key = k <;> simp [h]

theorem unseen_setKey_of_isSome (found : List StatusError) (h : (m.lookup k).isSome) :
    s.unseen (setKey k found m) = s.unseen m := by
  rw [unseen_setKey, without, List.filter_eq_self]
  intro f hf
  have hn : m.lookup f.key = none := by simpa using (List.mem_filter.mp hf).2
  have hne : f.key ≠ k := by
    rintro rfl
    simp [hn] at h
  simpa using hne

theorem mem_map_key_unseen (hf : f ∈ s.program.fns) :
    f.key ∈ (s.unseen m).map (·.key) ↔ m.lookup f.key = none := by
  rw [List.mem_map]
  constructor
  · rintro ⟨g, hg, he⟩
    simpa [he] using (List.mem_filter.mp hg).2
  · exact fun h => ⟨f, List.mem_filter.mpr ⟨hf, by simp [h]⟩, rfl⟩

theorem length_unseen_setKey_lt (hf : f ∈ s.program.fns) (h : m.lookup f.key = none) :
    (s.unseen (setKey f.key found m)).length < (s.unseen m).length := by
  rw [unseen_setKey]
  exact length_without_lt ((mem_map_key_unseen hf).mpr h)

theorem Gathers.length_unseen_le (h : Gathers s m found gs w found' m') :
    (s.unseen m').length ≤ (s.unseen m).length := by
  refine (List.monotone_filter_right _ fun f hf => ?_).length_le
  rw [Option.isNone_iff_eq_none] at hf ⊢
  exact h.lookup_eq_none hf

theorem Answers.length_unseen_le {answer : List StatusError} (h : Answers s m f w answer m') :
    (s.unseen m').length ≤ (s.unseen m).length :=
  (h.gathers_singleton []).length_unseen_le

theorem run_search_known {n : Nat} {answer : List StatusError}
    (h : m.lookup f.key = some answer) : (s.search (n + 1) f).run m = (answer, m) := by
  simp [search, h]
  rfl

theorem run_search_fresh {n : Nat} (h : m.lookup f.key = none) :
    (s.search (n + 1) f).run m =
      let r := ((s.callees f).foldlM (fun found g => do return merge found (← s.search n g))
        (merge [] (s.direct f))).run (setKey f.key [] m)
      (r.1, setKey f.key r.1 r.2) := by
  simp [search, h]
  rfl

/-- A search with more room than there are functions to enter follows the rules. -/
theorem answers_search {n : Nat} (hf : f ∈ s.program.fns) (hn : (s.unseen m).length < n) :
    ∃ w, Answers s m f w ((s.search n f).run m).1 ((s.search n f).run m).2 := by
  induction n generalizing f m with
  | zero => omega
  | succ n ih =>
    have gathers : ∀ gs ⊆ s.program.fns, ∀ (found : List StatusError) (m : Memo),
        (s.unseen m).length < n → ∃ w, Gathers s m found gs w
          ((gs.foldlM (fun found g => do return merge found (← s.search n g)) found).run m).1
          ((gs.foldlM (fun found g => do return merge found (← s.search n g)) found).run m).2 := by
      intro gs
      induction gs with
      | nil => exact fun _ _ _ _ => ⟨[], .nil⟩
      | cons g gs ihg =>
        intro hgs found m hm
        obtain ⟨w, hw⟩ := ih (hgs List.mem_cons_self) hm
        obtain ⟨w', hw'⟩ := ihg (fun x hx => hgs (List.mem_cons_of_mem _ hx))
          (merge found ((s.search n g).run m).1) _ (hw.length_unseen_le.trans_lt hm)
        exact ⟨w ++ w', hw.gathers hw'⟩
    cases hk : m.lookup f.key with
    | some answer =>
      rw [run_search_known hk]
      exact ⟨[], .known hk⟩
    | none =>
      rw [run_search_fresh hk]
      obtain ⟨w, hw⟩ := gathers (s.callees f) (fun _ hg => mem_fns_of_mem_callees hg)
        (merge [] (s.direct f)) (setKey f.key [] m)
        ((length_unseen_setKey_lt hf hk).trans_le (Nat.le_of_lt_succ hn))
      exact ⟨_, .fresh hk hw⟩

/-- The steps of a run are those of the walk of the functions that are not in the memo. -/
theorem Gathers.walk_eq (h : Gathers s m found gs w found' m') (hgs : gs ⊆ s.program.fns)
    (ahead : List Step) :
    s.walk (s.unseen m) (gs.map .enter ++ ahead) = w ++ s.walk (s.unseen m') ahead := by
  induction h generalizing ahead with
  | nil => rfl
  | known hk _ ih =>
    obtain ⟨hg, hgs⟩ := List.cons_subset.mp hgs
    rw [List.map_cons, List.cons_append, walk, if_neg, ih hgs]
    simp [mem_map_key_unseen hg, hk]
  | @fresh m found g w nested m' gs w' _ _ hk hc _ ih ih' =>
    obtain ⟨hg, hgs⟩ := List.cons_subset.mp hgs
    have hs : (m'.lookup g.key).isSome := hc.lookup_isSome (by simp)
    rw [List.map_cons, List.cons_append, walk, if_pos ((mem_map_key_unseen hg).mpr hk),
      ← unseen_setKey [], ih fun _ hx => mem_fns_of_mem_callees hx, walk,
      ← unseen_setKey_of_isSome nested hs, ih' hgs]
    simp

end ServiceContract.ErrorSearch
