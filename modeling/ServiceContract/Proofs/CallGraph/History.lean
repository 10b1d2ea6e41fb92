import ServiceContract.Proofs.CallGraph.Preorder

/-! # Later searches

A call that leads back into a search that has not ended adds nothing, and the memo keeps what the
caller has found by then. So an answer has the errors of those functions alone that are reached
by heeded calls: calls of functions whose searches ended before that of the caller.
-/

namespace ServiceContract.ErrorSearch

open StatusError Relation

variable {s : ErrorSearch} {m m' : Memo} {found found' nested : List StatusError}
  {order more gs : List FnDecl} {w : List Step} {f g h : FnDecl} {i : String × Int}

/-- A call of a function that comes before the caller in the order in which searches end. -/
def Heeds (s : ErrorSearch) (order : List FnDecl) (f g : FnDecl) : Prop :=
  s.Calls f g ∧ [g, f].Sublist order

/-- An error of this identity is raised by a function that is reached from another one. -/
def Raises (s : ErrorSearch) (r : FnDecl → FnDecl → Prop) (f : FnDecl) (i : String × Int) : Prop :=
  ∃ g, ReflTransGen r f g ∧ i ∈ identities (s.direct g)

theorem Raises.mono {r r' : FnDecl → FnDecl → Prop} (hr : ∀ f g, r f g → r' f g)
    (h : s.Raises r f i) : s.Raises r' f i := by
  obtain ⟨g, hg, hi⟩ := h
  exact ⟨g, ReflTransGen.mono hr _ _ hg, hi⟩

theorem raises_iff {r : FnDecl → FnDecl → Prop} :
    s.Raises r f i ↔ i ∈ identities (s.direct f) ∨ ∃ g, r f g ∧ s.Raises r g i := by
  constructor
  · rintro ⟨g, hg, hi⟩
    rcases hg.cases_head with rfl | ⟨c, hc, hg⟩
    · exact Or.inl hi
    · exact Or.inr ⟨c, hc, g, hg, hi⟩
  · rintro (hi | ⟨c, hc, g, hg, hi⟩)
    · exact ⟨f, .refl, hi⟩
    · exact ⟨g, .head hc hg, hi⟩

/-- A pair stands in a list of different elements that is longer at the end, with its later part
in the shorter list, only if it stands in the shorter list. -/
theorem pair_sublist_append (hn : (order ++ more).Nodup) (hf : f ∈ order) :
    [g, f].Sublist (order ++ more) ↔ [g, f].Sublist order := by
  refine ⟨fun h => ?_, fun h => h.trans (List.sublist_append_left _ _)⟩
  obtain ⟨l, l', he, hl, hl'⟩ := List.sublist_append_iff.mp h
  have hd : f ∉ l' := fun hm => (List.disjoint_of_nodup_append hn) hf (hl'.subset hm)
  cases l' with
  | nil => rwa [he, List.append_nil]
  | cons a as =>
    have hm : f ∈ a :: as := by
      have hlast := congrArg List.getLast? he
      rw [List.getLast?_append_of_ne_nil _ (by simp)] at hlast
      exact List.mem_of_getLast? hlast.symm
    exact absurd hm hd

theorem pair_sublist_concat (hf : f ∉ order) :
    [g, f].Sublist (order ++ [f]) ↔ g ∈ order := by
  constructor
  · intro h
    obtain ⟨l, l', he, hl, hl'⟩ := List.sublist_append_iff.mp h
    rcases List.sublist_singleton.mp hl' with rfl | rfl
    · rw [List.append_nil] at he
      exact absurd (hl.subset (he ▸ by simp)) hf
    · have hg : [g] ++ [f] = l ++ [f] := he
      exact (List.append_cancel_right hg ▸ hl).subset List.mem_cons_self
  · intro h
    exact (List.singleton_sublist.mpr h).append (List.Sublist.refl [f])

theorem heeds_append (hn : (order ++ more).Nodup) (hf : f ∈ order) :
    s.Heeds (order ++ more) f g ↔ s.Heeds order f g :=
  and_congr_right fun _ => pair_sublist_append hn hf

theorem Heeds.mem (h : s.Heeds order f g) : g ∈ order := h.2.subset List.mem_cons_self

/-- Searches that end later do not change what is reached from a function whose search has
ended. -/
theorem raises_append (hn : (order ++ more).Nodup) (hf : f ∈ order) :
    s.Raises (s.Heeds (order ++ more)) f i ↔ s.Raises (s.Heeds order) f i := by
  constructor
  · rintro ⟨g, hg, hi⟩
    refine ⟨g, ?_, hi⟩
    clear hi
    induction hg using ReflTransGen.head_induction_on with
    | refl => exact .refl
    | head hfc _ ih =>
      have hc := (heeds_append hn hf).mp hfc
      exact .head hc (ih hc.mem)
  · exact fun h => h.mono fun f g hh => ⟨hh.1, hh.2.trans (List.sublist_append_left _ _)⟩

/-- The answers in a memo of searches that have ended in some order: an answer has the errors that
are reached by heeded calls, and a search that has not ended has none yet. -/
structure Settled (s : ErrorSearch) (order : List FnDecl) (m : Memo) : Prop where
  nodup : (order.map (·.key)).Nodup
  known : order ⊆ s.program.fns
  ended : ∀ g ∈ order, ∃ answer, m.lookup g.key = some answer ∧
    ∀ i, i ∈ identities answer ↔ s.Raises (s.Heeds order) g i
  pending : ∀ k answer, m.lookup k = some answer → k ∉ order.map (·.key) → answer = []

theorem settled_nil : Settled s [] [] where
  nodup := List.nodup_nil
  known := by simp
  ended := by simp
  pending := by simp

theorem Settled.begin (hs : Settled s order m) (hk : m.lookup g.key = none) :
    Settled s order (setKey g.key [] m) where
  nodup := hs.nodup
  known := hs.known
  ended x hx := by
    obtain ⟨answer, hl, ha⟩ := hs.ended x hx
    have hne : x.key ≠ g.key := fun he => by simp [← he, hl] at hk
    exact ⟨answer, by rw [lookup_setKey_of_ne hne, hl], ha⟩
  pending k answer hl hn := by
    rw [lookup_setKey] at hl
    split at hl
    · cases hl; rfl
    · exact hs.pending k answer hl hn

theorem Settled.finish (hs : Settled s order m) (hf : g ∈ s.program.fns)
    (hg : g.key ∉ order.map (·.key))
    (hi : ∀ i, i ∈ identities found ↔ s.Raises (s.Heeds (order ++ [g])) g i) :
    Settled s (order ++ [g]) (setKey g.key found m) := by
  have hn : ((order ++ [g]).map (·.key)).Nodup := by
    rw [List.map_append]
    exact hs.nodup.append (List.nodup_singleton _) (by simpa using hg)
  refine ⟨hn, List.append_subset.mpr ⟨hs.known, by simpa using hf⟩, fun x hx => ?_,
    fun k answer hl hk => ?_⟩
  · rcases List.mem_append.mp hx with hx | hx
    · obtain ⟨answer, hl, ha⟩ := hs.ended x hx
      have hne : x.key ≠ g.key := fun he => hg (he ▸ List.mem_map_of_mem hx)
      exact ⟨answer, by rw [lookup_setKey_of_ne hne, hl],
        fun i => (ha i).trans (raises_append hn.of_map hx).symm⟩
    · obtain rfl := List.mem_singleton.mp hx
      exact ⟨found, lookup_setKey_self, hi⟩
  · simp only [List.map_append, List.mem_append, not_or] at hk
    rw [lookup_setKey_of_ne (by simpa using hk.2)] at hl
    exact hs.pending k answer hl hk.1

theorem Settled.mem_of_key (hs : Settled s order m) (hk : (s.program.fns.map (·.key)).Nodup)
    (hg : g ∈ s.program.fns) (h : g.key ∈ order.map (·.key)) : g ∈ order := by
  obtain ⟨x, hx, he⟩ := List.mem_map.mp h
  exact List.inj_on_of_nodup_map hk (hs.known hx) hg he ▸ hx

theorem Settled.key_not_mem {k : String} (hs : Settled s order m) (hk : m.lookup k = none) :
    k ∉ order.map (·.key) := by
  intro h
  obtain ⟨x, hx, rfl⟩ := List.mem_map.mp h
  obtain ⟨answer, hl, _⟩ := hs.ended x hx
  simp [hl] at hk

/-- What a function raises by heeded calls when its search has just ended. -/
theorem raises_concat (hn : order.Nodup) (hf : f ∉ order) :
    s.Raises (s.Heeds (order ++ [f])) f i ↔ i ∈ identities (s.direct f) ∨
      ∃ g ∈ s.callees f, g ∈ order ∧ s.Raises (s.Heeds order) g i := by
  have hn' : (order ++ [f]).Nodup := hn.append (List.nodup_singleton f) (by simpa using hf)
  rw [raises_iff]
  refine or_congr_right (exists_congr fun g => ?_)
  rw [Heeds, pair_sublist_concat hf, Calls, and_assoc]
  exact and_congr_right fun _ => and_congr_right fun hg => raises_append hn' hg

/-- What an answer in a settled memo holds, also after searches of other functions have ended. -/
theorem Settled.mem_identities_iff (hs : Settled s order m)
    (hk : (s.program.fns.map (·.key)).Nodup) (hg : g ∈ s.program.fns)
    (hl : m.lookup g.key = some nested) (hn : (order ++ more).Nodup) (hw : g ∉ more) :
    i ∈ identities nested ↔ g ∈ order ++ more ∧ s.Raises (s.Heeds (order ++ more)) g i := by
  by_cases ho : g ∈ order
  · obtain ⟨answer, ha, hr⟩ := hs.ended g ho
    obtain rfl : answer = nested := Option.some.inj (ha.symm.trans hl)
    rw [hr i, raises_append hn ho]
    exact (and_iff_right (List.mem_append_left _ ho)).symm
  · have hempty : nested = [] := hs.pending _ _ hl fun h => ho (hs.mem_of_key hk hg h)
    simp [hempty, ho, hw]

/-- A run keeps the memo settled, and its answer gathers what the answers of the functions whose
searches have ended hold. -/
theorem Gathers.settled (h : Gathers s m found gs w found' m')
    (hk : (s.program.fns.map (·.key)).Nodup) (hgs : gs ⊆ s.program.fns) (hs : Settled s order m) :
    Settled s (order ++ left w) m' ∧ ∀ i, i ∈ identities found' ↔ i ∈ identities found ∨
      ∃ g ∈ gs, g ∈ order ++ left w ∧ s.Raises (s.Heeds (order ++ left w)) g i := by
  induction h generalizing order with
  | nil => simpa using hs
  | @known m found g nested gs w found' m' hl hrest ih =>
    obtain ⟨hg, hgs⟩ := List.cons_subset.mp hgs
    obtain ⟨hs', hi⟩ := ih hgs hs
    refine ⟨hs', fun i => ?_⟩
    have hw : g ∉ left w := fun h => by simp [hrest.lookup_of_mem_left h] at hl
    rw [hi, mem_identities_merge, hs.mem_identities_iff hk hg hl hs'.nodup.of_map hw, or_assoc]
    simp only [List.mem_cons, exists_eq_or_imp]
  | @fresh m found g w nested m' gs w' found' m'' hl hc hrest ih ih' =>
    obtain ⟨hg, hgs⟩ := List.cons_subset.mp hgs
    obtain ⟨hs', hi⟩ := ih (fun _ hx => mem_fns_of_mem_callees hx) (hs.begin hl)
    -- The search of `g` ends behind those that it has started, and it is asked only once.
    have hnew : g.key ∉ (order ++ left w).map (·.key) := by
      rw [List.map_append, List.mem_append, not_or]
      refine ⟨hs.key_not_mem hl, fun hw => ?_⟩
      obtain ⟨x, hx, he⟩ := List.mem_map.mp hw
      exact (lookup_setKey_eq_none.mp (hc.lookup_of_mem_left hx)).1 he
    have hnested : ∀ i, i ∈ identities nested ↔
        s.Raises (s.Heeds (order ++ left w ++ [g])) g i := by
      intro i
      rw [raises_concat hs'.nodup.of_map fun h => hnew (List.mem_map_of_mem h), hi,
        mem_identities_merge]
      simp
    have he : order ++ left (.enter g :: (w ++ .leave g :: w')) =
        order ++ left w ++ [g] ++ left w' := by simp
    obtain ⟨hs'', hi''⟩ := ih' hgs (hs'.finish hg hnew hnested)
    rw [he]
    refine ⟨hs'', fun i => ?_⟩
    have hg' : g ∈ order ++ left w ++ [g] := by simp
    rw [hi'', mem_identities_merge, hnested, ← raises_append hs''.nodup.of_map hg', or_assoc]
    simp only [List.mem_cons, exists_eq_or_imp, List.mem_append_left _ hg', true_and]

/-- The memo after several functions have been asked. -/
def memoAfter (s : ErrorSearch) (asked : List FnDecl) : Memo := ((asked.mapM s.reachable).run []).2

/-- The answer for a function after others have been asked. -/
def answerAfter (s : ErrorSearch) (asked : List FnDecl) (f : FnDecl) : List StatusError :=
  ((s.reachable f).run (s.memoAfter asked)).1

theorem gathers_mapM_reachable {asked : List FnDecl} (ha : asked ⊆ s.program.fns) (m : Memo)
    (found : List StatusError) :
    ∃ w found', Gathers s m found asked w found' ((asked.mapM s.reachable).run m).2 := by
  induction asked generalizing m found with
  | nil => exact ⟨[], found, .nil⟩
  | cons f asked ih =>
    obtain ⟨hf, ha⟩ := List.cons_subset.mp ha
    obtain ⟨w, hw⟩ := s.exists_answers hf m
    obtain ⟨w', found', hw'⟩ := ih ha ((s.reachable f).run m).2
      (merge found ((s.reachable f).run m).1)
    have he : ((f :: asked).mapM s.reachable).run m =
        (((s.reachable f).run m).1 :: ((asked.mapM s.reachable).run ((s.reachable f).run m).2).1,
          ((asked.mapM s.reachable).run ((s.reachable f).run m).2).2) := by
      simp [List.mapM_cons]
      rfl
    exact ⟨w ++ w', found', he ▸ hw.gathers hw'⟩

theorem Gathers.endings_eq (h : Gathers s [] found gs w found' m') (hgs : gs ⊆ s.program.fns) :
    s.endings gs = left w := by
  have hw := h.walk_eq hgs []
  simp only [unseen, List.lookup_nil, Option.isNone_none, List.filter_true, List.append_nil,
    walk] at hw
  rw [endings, hw]

theorem mem_endings {asked : List FnDecl} (hk : (s.program.fns.map (·.key)).Nodup)
    (ha : asked ⊆ s.program.fns) (hf : f ∈ asked) : f ∈ s.endings asked := by
  obtain ⟨w, found, hw⟩ := gathers_mapM_reachable ha [] []
  rw [hw.endings_eq ha]
  exact (hw.isSome_or_mem_left hk ha (ha hf) (hw.lookup_of_mem hf)).resolve_left (by simp)

/-- The answer for a function has exactly the errors that are reached by heeded calls. -/
theorem mem_answerAfter_iff {asked : List FnDecl} (hk : (s.program.fns.map (·.key)).Nodup)
    (ha : asked ++ [f] ⊆ s.program.fns) : i ∈ identities (s.answerAfter asked f) ↔
      s.Raises (s.Heeds (s.endings (asked ++ [f]))) f i := by
  obtain ⟨ha', hf⟩ := List.append_subset.mp ha
  obtain ⟨w, found, hw⟩ := gathers_mapM_reachable ha' [] []
  obtain ⟨w', hw'⟩ := s.exists_answers (hf (List.mem_singleton_self f)) (s.memoAfter asked)
  have he : s.endings (asked ++ [f]) = left w ++ left w' := by
    rw [(hw.append (hw'.gathers_singleton found)).endings_eq ha, left_append]
  have hmem : f ∈ left w ++ left w' := he ▸ mem_endings hk ha List.mem_concat_self
  have hi := ((hw'.gathers_singleton []).settled hk hf (hw.settled hk ha' settled_nil).1).2 i
  rw [he]
  simpa [answerAfter, mem_identities_merge, List.mem_append.mp hmem] using hi

/-- A call is heeded unless the function that is called leads back to the caller: only then can
its search be pending while that of the caller begins. -/
theorem Gathers.heeds_or_reaches (h : Gathers s m found gs w found' m')
    (hk : (s.program.fns.map (·.key)).Nodup) (hgs : gs ⊆ s.program.fns) (order : List FnDecl)
    (ho : ∀ x ∈ s.program.fns, (m.lookup x.key).isSome → x ∉ order →
      ∀ g ∈ gs, ReflTransGen s.Calls x g)
    (hf : f ∈ left w) (hc : s.Calls f g) :
    [g, f].Sublist (order ++ left w) ∨ ReflTransGen s.Calls g f := by
  induction h generalizing order with
  | nil => cases hf
  | known _ _ ih =>
    exact ih (fun _ hx => hgs (List.mem_cons_of_mem _ hx)) order
      (fun x hx hl hn g hg => ho x hx hl hn g (List.mem_cons_of_mem _ hg)) hf
  | @fresh m found c w nested m' gs w' found' m'' hl hrun hrest ih ih' =>
    obtain ⟨hcf, hgs⟩ := List.cons_subset.mp hgs
    have hcs : s.callees c ⊆ s.program.fns := fun _ hx => mem_fns_of_mem_callees hx
    -- While `c` is searched, whatever is in the memo without an end leads to `c` or is `c`.
    have pending : ∀ x ∈ s.program.fns, ((setKey c.key [] m).lookup x.key).isSome → x ∉ order →
        ∀ g ∈ c :: gs, x = c ∨ ReflTransGen s.Calls x g := by
      intro x hx hs hn g hg
      rcases isSome_lookup_setKey.mp hs with he | hs
      · exact Or.inl (List.inj_on_of_nodup_map hk hx hcf he)
      · exact Or.inr (ho x hx hs hn g hg)
    have reaches : ∀ x ∈ s.program.fns, ((setKey c.key [] m).lookup x.key).isSome → x ∉ order →
        ReflTransGen s.Calls x c := fun x hx hs hn =>
      (pending x hx hs hn c List.mem_cons_self).elim (fun he => he ▸ .refl) id
    have he : order ++ left (.enter c :: (w ++ .leave c :: w')) =
        order ++ left w ++ [c] ++ left w' := by simp
    rw [he]
    simp only [left_enter, left_append, left_leave, List.mem_append, List.mem_cons] at hf
    rcases hf with hf | rfl | hf
    · refine (ih hcs order (fun x hx hs hn g hg => (reaches x hx hs hn).tail hg) hf).imp_left
        fun hp => ?_
      rw [List.append_assoc _ [c]]
      exact hp.trans (List.sublist_append_left _ _)
    · by_cases hg : g ∈ order ++ left w
      · left
        exact ((List.singleton_sublist.mpr hg).append (List.Sublist.refl [f])).trans
          (List.sublist_append_left _ _)
      · rw [List.mem_append, not_or] at hg
        have hs := (hrun.isSome_or_mem_left hk hcs (mem_fns_of_mem_callees hc)
          (hrun.lookup_of_mem hc)).resolve_right hg.2
        exact Or.inr (reaches g (mem_fns_of_mem_callees hc) hs hg.1)
    · refine ih' hgs (order ++ left w ++ [c]) (fun x hx hs hn g hg => ?_) hf
      simp only [List.mem_append, List.mem_singleton, not_or] at hn
      have hs := (isSome_lookup_setKey.mp hs).resolve_left fun he =>
        hn.2 (List.inj_on_of_nodup_map hk hx hcf he)
      have hs := (hrun.isSome_or_mem_left hk hcs hx hs).resolve_right hn.1.2
      exact (pending x hx hs hn.1.1 g (List.mem_cons_of_mem _ hg)).resolve_left hn.2

/-- The first answer has all errors that a function leads to. -/
theorem mem_answerAfter_nil_iff (hk : (s.program.fns.map (·.key)).Nodup)
    (hf : f ∈ s.program.fns) : i ∈ identities (s.answerAfter [] f) ↔ s.Raises s.Calls f i := by
  obtain ⟨w, hw⟩ := s.exists_answers hf []
  have he : s.answerAfter [] f = merge [] ((s.preorder f).flatMap s.direct) :=
    (hw.eq_firsts hf).trans merge_nil_left.symm
  rw [he, mem_identities_merge]
  simp only [Raises, ← mem_preorder_iff hk hf, mem_identities, List.not_mem_nil, List.mem_flatMap]
  tauto

/-- Where no two functions lead to each other, every answer has all errors that its function leads
to, whatever has been asked before. -/
theorem mem_answerAfter_iff_of_acyclic {asked : List FnDecl}
    (hk : (s.program.fns.map (·.key)).Nodup) (ha : asked ++ [f] ⊆ s.program.fns)
    (hc : ∀ g h, s.Calls g h → ReflTransGen s.Calls h g → h = g) :
    i ∈ identities (s.answerAfter asked f) ↔ s.Raises s.Calls f i := by
  rw [mem_answerAfter_iff hk ha]
  refine ⟨fun h => h.mono fun _ _ hh => hh.1, ?_⟩
  rintro ⟨g, hg, hi⟩
  obtain ⟨w, found, hw⟩ := gathers_mapM_reachable ha [] []
  have heeds : ∀ g ∈ s.endings (asked ++ [f]), ∀ h, s.Calls g h →
      h = g ∨ s.Heeds (s.endings (asked ++ [f])) g h := by
    intro g hg h hgh
    rw [hw.endings_eq ha] at hg ⊢
    rcases hw.heeds_or_reaches hk ha [] (by simp) hg hgh with hs | hr
    · exact Or.inr ⟨hgh, hs⟩
    · exact Or.inl (hc g h hgh hr)
  have reached : ReflTransGen (s.Heeds (s.endings (asked ++ [f]))) f g ∧
      g ∈ s.endings (asked ++ [f]) := by
    clear hi
    induction hg with
    | refl => exact ⟨.refl, mem_endings hk ha List.mem_concat_self⟩
    | tail _ hgh ih =>
      rcases heeds _ ih.2 _ hgh with rfl | hh
      · exact ih
      · exact ⟨ih.1.tail hh, hh.mem⟩
  exact ⟨g, reached.1, hi⟩

/-- Whatever has been asked before, an answer has exactly the errors that heeded calls reach. So it
has no others than the function leads to, and all of these exactly if heeded calls reach them. They
do if nothing has been asked before, or if no two functions lead to each other. -/
theorem answerAfter_complete_iff {p : Program} {asked : List FnDecl}
    (hk : (p.fns.map (·.key)).Nodup) (ha : asked ⊆ p.fns) (hf : f ∈ p.fns) :
    let s := ofProgram p
    let heeded := s.Raises (s.Heeds (s.endings (asked ++ [f]))) f
    let complete := ∀ i, i ∈ identities (s.answerAfter asked f) ↔ s.Raises s.Calls f i
    (∀ i, i ∈ identities (s.answerAfter asked f) ↔ heeded i) ∧
      (∀ i ∈ identities (s.answerAfter asked f), s.Raises s.Calls f i) ∧
      (complete ↔ ∀ i, s.Raises s.Calls f i → heeded i) ∧ (asked = [] → complete) ∧
      ((∀ g h, s.Calls g h → ReflTransGen s.Calls h g → h = g) → complete) := by
  intro s heeded complete
  have hsub : asked ++ [f] ⊆ s.program.fns :=
    List.append_subset.mpr ⟨ha, List.cons_subset.mpr ⟨hf, List.nil_subset _⟩⟩
  have hi : ∀ i, i ∈ identities (s.answerAfter asked f) ↔ heeded i :=
    fun _ => mem_answerAfter_iff hk hsub
  have sound : ∀ i ∈ identities (s.answerAfter asked f), s.Raises s.Calls f i := fun i h =>
    ((hi i).mp h).mono fun _ _ hh => hh.1
  refine ⟨hi, sound, ⟨fun h i hr => (hi i).mp ((h i).mpr hr), fun h i => ⟨sound i, fun hr => ?_⟩⟩,
    fun hnil i => ?_, fun hc i => mem_answerAfter_iff_of_acyclic hk hsub hc⟩
  · exact (hi i).mpr (h i hr)
  · rw [hnil]
    exact mem_answerAfter_nil_iff hk hf

theorem answerAfter_complete_iff_pong :
    (pingPong.fns.map (·.key)).Nodup ∧ [ping] ⊆ pingPong.fns ∧ pong ∈ pingPong.fns ∧
    (let s := ofProgram pingPong
     let heeded := s.Raises (s.Heeds (s.endings ([ping] ++ [pong]))) pong
     let complete := ∀ i, i ∈ identities (s.answerAfter [ping] pong) ↔ s.Raises s.Calls pong i
     (∀ i, i ∈ identities (s.answerAfter [ping] pong) ↔ heeded i) ∧
      (∀ i ∈ identities (s.answerAfter [ping] pong), s.Raises s.Calls pong i) ∧
      (complete ↔ ∀ i, s.Raises s.Calls pong i → heeded i) ∧ ([ping] = [] → complete) ∧
      ((∀ g h, s.Calls g h → ReflTransGen s.Calls h g → h = g) → complete)) :=
  have hk : (pingPong.fns.map (·.key)).Nodup := by decide
  have ha : [ping] ⊆ pingPong.fns := by simp [pingPong]
  have hf : pong ∈ pingPong.fns := by simp [pingPong]
  ⟨hk, ha, hf, answerAfter_complete_iff hk ha hf⟩

/-- Asked after its caller, a function on a cycle of calls has lost the errors of the caller. -/
theorem answerAfter_pong_incomplete :
    let s := ofProgram pingPong
    (pingPong.fns.map (·.key)).Nodup ∧ [ping] ⊆ pingPong.fns ∧ pong ∈ pingPong.fns ∧
      identities (s.answerAfter [] pong) = [("Forbidden", 403000001), ("NotFound", 404000001)] ∧
      identities (s.answerAfter [ping] pong) = [("Forbidden", 403000001)] ∧
      ¬ ∀ i, i ∈ identities (s.answerAfter [ping] pong) ↔ s.Raises s.Calls pong i := by
  intro s
  have he : identities (s.answerAfter [ping] pong) = [("Forbidden", 403000001)] := by rfl
  have hc : s.callees pong = [ping] := by rfl
  have hd : identities (s.direct ping) = [("NotFound", 404000001)] := by rfl
  refine ⟨by decide, by simp [pingPong], by simp [pingPong], by rfl, he, fun h => ?_⟩
  have hr : s.Raises s.Calls pong ("NotFound", 404000001) :=
    ⟨ping, .single (by simp [Calls, hc]), by simp [hd]⟩
  have hm := (h _).mpr hr
  simp [he] at hm

end ServiceContract.ErrorSearch
