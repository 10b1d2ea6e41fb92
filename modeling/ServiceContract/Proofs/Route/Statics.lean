import ServiceContract.Proofs.Route.OwnScopes
import ServiceContract.Proofs.Route.Order

/-! # Statics

The value of a static is replayed when a replay first reads its name, and every later read gives the
scope of that time. A name is read by the last segment of its path, in whatever module it stands, so
of several statics of one name only the first declared one is ever replayed.
-/

namespace ServiceContract

open Source

/-- The name of the static that a move enters or leaves. -/
def Move.static? : Move → Option String
  | .enter name => some name
  | .leave name _ => some name
  | _ => none

namespace ReplayState

variable {s : ReplayState} {m : Move} {ms : List Move} {name : String}

theorem lookup_statics_apply (h : m.static? ≠ some name) :
    (s.apply m).statics.lookup name = s.statics.lookup name := by
  cases m with
  | enter other | leave other _ => exact lookup_setKey_of_ne fun he => h (he ▸ rfl)
  | make | link | attach | serve | begin | finish => rfl

theorem lookup_statics_after (h : ∀ m ∈ ms, m.static? ≠ some name) :
    (s.after ms).statics.lookup name = s.statics.lookup name := by
  induction ms generalizing s with
  | nil => rfl
  | cons m ms ih =>
    obtain ⟨hm, hms⟩ := List.forall_mem_cons.mp h
    exact (ih hms).trans (lookup_statics_apply hm)

theorem size_le_apply : s.forest.size ≤ (s.apply m).forest.size := by
  cases m with
  | make => exact ScopeForest.size_add ▸ Nat.le_succ _
  | link => exact Nat.le_of_eq ScopeForest.size_link.symm
  | attach => exact Nat.le_of_eq ScopeForest.size_attach.symm
  | serve | enter | leave | begin | finish => exact Nat.le_refl _

theorem size_le_after : s.forest.size ≤ (s.after ms).forest.size := by
  induction ms generalizing s with
  | nil => exact Nat.le_refl _
  | cons m ms ih => exact Nat.le_trans size_le_apply ih

/-- Whatever stands under a scope was there before or has been registered under it. -/
theorem mem_children_after {p : Program} {id child : ScopeId} (hs : s.Sound p)
    (hms : s.Along (Legal p) ms) (h : child ∈ ((s.after ms).forest.scope id).children) :
    child ∈ (s.forest.scope id).children ∨ .link id child ∈ ms := by
  induction ms generalizing s with
  | nil => exact .inl h
  | cons m ms ih =>
    obtain ⟨hm, hms⟩ := hms
    rcases ih (hs.apply hm) hms h with h | h
    · cases m with
      | make => exact .inl (ScopeForest.children_add ▸ h)
      | attach => exact .inl (ScopeForest.children_attach ▸ h)
      | serve | enter | leave | begin | finish => exact .inl h
      | link q c =>
        rw [apply] at h
        rcases hs.forest.link_cases q c with hkept | ⟨hp, ha, hne⟩
        · exact .inl (hkept ▸ h)
        · rw [ScopeForest.children_link hp hm.1 hm.2 ha hne] at h
          split at h
          · next hid =>
            rcases List.mem_append.mp h with h | h
            · exact .inl (hid ▸ h)
            · obtain rfl := List.mem_singleton.mp h
              exact .inr (hid ▸ List.mem_cons_self)
          · exact .inl h
    · exact .inr (List.mem_cons_of_mem _ h)

end ReplayState

namespace Replay

open ReplayState

variable {p : Program} {t : Task} {s : ReplayState} {ms : List Move} {a : Option ScopeId}
  {name : String} {d : Declared StaticItem} {scope : Option ScopeId}
  {before inner after pre post : List Move}

/-- The value of a static is replayed in one place of a list of moves, and nothing else in the list
enters or leaves the static. -/
structure Evaluated (p : Program) (name : String) (d : Declared StaticItem) (s : ReplayState)
    (ms before inner after : List Move) (scope : Option ScopeId) : Prop where
  split : ms = before ++ .enter name :: (inner ++ .leave name scope :: after)
  run : Runs p (.script {} (d.script p)) ((s.after before).apply (.enter name)) inner scope
  others : ∀ m ∈ before ++ inner ++ after, m.static? ≠ some name

/-- The value is replayed in the same place if other moves surround the list. -/
theorem Evaluated.within (h : Evaluated p name d (s.after pre) ms before inner after scope)
    (hpre : ∀ m ∈ pre, m.static? ≠ some name) (hpost : ∀ m ∈ post, m.static? ≠ some name) :
    Evaluated p name d s (pre ++ ms ++ post) (pre ++ before) inner (after ++ post) scope where
  split := by simp [h.split]
  run := by
    rw [after_append]
    exact h.run
  others := by
    have ho := h.others
    simp only [List.forall_mem_append] at ho ⊢
    exact ⟨⟨⟨hpre, ho.1.1⟩, ho.1.2⟩, ho.2, hpost⟩

/-- From its place on, the scope of the static is known. -/
theorem Evaluated.lookup_after (h : Evaluated p name d s ms before inner after scope) {k : Nat}
    (hk : before.length + inner.length + 2 ≤ k) :
    (s.after (ms.take k)).statics.lookup name = some scope := by
  have hsplit : ms = (before ++ .enter name :: (inner ++ [.leave name scope])) ++ after := by
    simp [h.split]
  have hlen : (before ++ Move.enter name :: (inner ++ [Move.leave name scope])).length ≤ k := by
    simp only [List.length_append, List.length_cons, List.length_nil]
    omega
  have hrest : ∀ j, ∀ m ∈ after.take j, m.static? ≠ some name := fun j m hm =>
    h.others m (List.mem_append_right _ (List.mem_of_mem_take hm))
  rw [hsplit, List.take_append, List.take_of_length_le hlen, after_append,
    lookup_statics_after (hrest _), after_append, after_cons, after_append]
  exact lookup_setKey_self

theorem Evaluated.lookup_end (h : Evaluated p name d s ms before inner after scope) :
    (s.after ms).statics.lookup name = some scope := by
  have hlen : before.length + inner.length + 2 ≤ ms.length := by
    simp [h.split]
    omega
  simpa using h.lookup_after hlen

theorem Step.static? {rights : Rights} {body next : Script (Option ScopeId)} {m : Move}
    (h : Step rights s body m next) : m.static? = none := by
  cases h <;> rfl

/-- A static that has been entered is not entered again. -/
theorem Runs.static?_ne (h : Runs p t s ms a) (hl : s.statics.lookup name = some scope) :
    ∀ m ∈ ms, m.static? ≠ some name := by
  induction h generalizing scope with
  | done | known | busy | asked | undeclared | idle => exact fun _ h => nomatch h
  | @move _ _ m _ _ _ _ hm _ ih =>
    have hne : m.static? ≠ some name := by simp [hm.static?]
    exact List.forall_mem_cons.mpr ⟨hne, ih ((lookup_statics_apply hne).trans hl)⟩
  | unserved _ _ ih => exact ih hl
  | static hjump _ ih ih' | call hjump _ ih ih' | turn hjump _ ih ih' =>
    exact List.forall_mem_append.mpr ⟨ih hl, ih' (hjump.keeps.statics _ _ hl)⟩
  | body _ _ _ ih =>
    refine List.forall_mem_cons.mpr ⟨nofun, List.forall_mem_append.mpr ⟨ih hl, ?_⟩⟩
    exact List.forall_mem_singleton.mpr nofun
  | @value other d s ms a hl' _ _ ih =>
    have hne : other ≠ name := fun he => by simp [← he, hl'] at hl
    have hne' : some other ≠ some name := fun he => hne (Option.some.inj he)
    have hinner := ih ((lookup_statics_apply (m := .enter other) hne').trans hl)
    exact List.forall_mem_cons.mpr ⟨hne', List.forall_mem_append.mpr
      ⟨hinner, List.forall_mem_singleton.mpr hne'⟩⟩

/-- A static that has not been entered before a run is either not entered by it either, or the value
of the first static of the name is replayed in one place of the run. -/
theorem Runs.evaluated (h : Runs p t s ms a) (hl : s.statics.lookup name = none)
    (hd : (p.statics.find? fun d => d.item.name == name) = some d) :
    (∀ m ∈ ms, m.static? ≠ some name) ∨
      ∃ before inner after scope, Evaluated p name d s ms before inner after scope := by
  have hnone : ∀ m ∈ ([] : List Move), m.static? ≠ some name := nofun
  induction h with
  | done | known | busy | asked | undeclared | idle => exact .inl fun _ h => nomatch h
  | @move _ _ m _ s ms _ hm _ ih =>
    have hm : ∀ m' ∈ [m], m'.static? ≠ some name := by simp [hm.static?]
    rcases ih ((lookup_statics_after hm).trans hl) with hnot | ⟨_, _, _, _, he⟩
    · exact .inl (List.forall_mem_append.mpr ⟨hm, hnot⟩)
    · exact .inr ⟨_, _, _, _, by simpa using he.within hm hnone⟩
  | unserved _ _ ih => exact ih hl
  | static hjump hrest ih ih' | call hjump hrest ih ih' | turn hjump hrest ih ih' =>
    rcases ih hl with hnot | ⟨_, _, _, _, he⟩
    · rcases ih' ((lookup_statics_after hnot).trans hl) with hnot' | ⟨_, _, _, _, he⟩
      · exact .inl (List.forall_mem_append.mpr ⟨hnot, hnot'⟩)
      · exact .inr ⟨_, _, _, _, by simpa using he.within hnot hnone⟩
    · have hnot := hrest.static?_ne he.lookup_end
      exact .inr ⟨_, _, _, _, by simpa using he.within hnone hnot⟩
  | @body f way s ms a _ _ _ ih =>
    have hbegin : ∀ m ∈ [Move.begin f way], m.static? ≠ some name := by simp [Move.static?]
    have hfinish : ∀ m ∈ [Move.finish f way a], m.static? ≠ some name := by simp [Move.static?]
    rcases ih ((lookup_statics_after hbegin).trans hl) with hnot | ⟨_, _, _, _, he⟩
    · exact .inl (List.forall_mem_append.mpr ⟨hbegin, List.forall_mem_append.mpr ⟨hnot, hfinish⟩⟩)
    · exact .inr ⟨_, _, _, _, he.within hbegin hfinish⟩
  | @value other d' s ms a _ hd' hrun ih =>
    by_cases hname : other = name
    · subst hname
      obtain rfl := Option.some.inj (hd.symm.trans hd')
      have hentered : (s.apply (.enter other)).statics.lookup other = some none :=
        lookup_setKey_self
      have hnot := hrun.static?_ne hentered
      exact .inr ⟨[], ms, [], a, rfl, hrun, by simpa using hnot⟩
    · have henter : ∀ m ∈ [Move.enter other], m.static? ≠ some name := by simp [Move.static?, hname]
      have hleave : ∀ m ∈ [Move.leave other a], m.static? ≠ some name := by
        simp [Move.static?, hname]
      rcases ih ((lookup_statics_after henter).trans hl) with hnot | ⟨_, _, _, _, he⟩
      · exact .inl (List.forall_mem_append.mpr ⟨henter, List.forall_mem_append.mpr ⟨hnot, hleave⟩⟩)
      · exact .inr ⟨_, _, _, _, he.within henter hleave⟩

/-- After its turn a declared static is known. -/
theorem Runs.isSome_lookup {js : List Jump} (h : Runs p (.turns js) s ms a)
    (hd : (p.statics.find? fun d => d.item.name == name) = some d) (hj : .static name ∈ js) :
    ((s.after ms).statics.lookup name).isSome := by
  induction js generalizing s ms with
  | nil => cases hj
  | cons j js ih =>
    cases h with
    | @turn _ _ _ ms _ _ hjump hrest =>
      rw [after_append]
      rcases List.mem_cons.mp hj with rfl | hj
      · have hknown : ((s.after ms).statics.lookup name).isSome := by
          cases hjump with
          | asked hl => exact Option.isSome_iff_exists.mpr ⟨_, hl⟩
          | undeclared _ hnone => cases hd.symm.trans hnone
          | value hl _ hrun =>
            rw [after_cons, after_append]
            exact Option.isSome_iff_exists.mpr ⟨_, lookup_setKey_self⟩
        obtain ⟨scope, hscope⟩ := Option.isSome_iff_exists.mp hknown
        exact Option.isSome_iff_exists.mpr ⟨scope, hrest.keeps.statics _ _ hscope⟩
      · exact ih hrest hj

/-- The value of the first static of a name is replayed in one place of the moves of a program. -/
theorem exists_evaluated (p : Program) (entryPoints : List String)
    (hd : (p.statics.find? fun d => d.item.name == name) = some d) :
    ∃ before inner after scope,
      Evaluated p name d {} (moves p entryPoints) before inner after scope := by
  have hrun := runs_moves p entryPoints
  rcases hrun.evaluated rfl hd with hnot | he
  · have hname : d.item.name = name := by simpa using List.find?_some hd
    have hturn : .static name ∈ turns p entryPoints := by
      refine List.mem_append_left _ (List.mem_append_left _
        (List.mem_map.mpr ⟨d, ?_, by rw [hname]⟩))
      exact List.mem_of_find?_eq_some hd
    have hsome := hrun.isSome_lookup hd hturn
    rw [lookup_statics_after hnot] at hsome
    cases hsome
  · exact he

variable {name' : String} {d' : Declared StaticItem} {scope' : Option ScopeId}
  {before' inner' after' pre' post' between : List Move} {operators operators' : List OperatorRef}

/-- After a scope is made there are more than before. -/
theorem eq_nil_of_size_eq (h : .make operators :: post = between ++ .make operators' :: post')
    (hsize : (s.after pre).forest.size = (s.after (pre ++ between)).forest.size) :
    between = [] := by
  cases between with
  | nil => rfl
  | cons m between =>
    obtain ⟨rfl, -⟩ := List.cons.inj h
    rw [after_append, after_cons] at hsize
    refine absurd hsize (Nat.ne_of_lt (Nat.lt_of_lt_of_le ?_ size_le_after))
    exact Nat.lt_of_lt_of_eq (Nat.lt_succ_self _) ScopeForest.size_add.symm

/-- Scopes that are made in different places are different. -/
theorem eq_of_size_eq (hms : ms = pre ++ .make operators :: post)
    (hms' : ms = pre' ++ .make operators' :: post')
    (hsize : (s.after pre).forest.size = (s.after pre').forest.size) : pre = pre' := by
  rcases List.append_eq_append_iff.mp (hms.symm.trans hms') with
    ⟨between, rfl, hsplit⟩ | ⟨between, rfl, hsplit⟩
  · rw [eq_nil_of_size_eq hsplit hsize, List.append_nil]
  · rw [eq_nil_of_size_eq hsplit hsize.symm, List.append_nil]

/-- A static that is entered after another one makes its scope in another place, since the other one
makes its own only where every static entered before is left. -/
theorem Evaluated.append_ne (h : Evaluated p name d s ms before inner after scope)
    (hne : name ≠ name') (hpre : pre <+: inner) (hclosed : Closed pre')
    (hbetween : before = before' ++ between) :
    before ++ .enter name :: pre ≠ before' ++ .enter name' :: pre' := by
  intro heq
  subst hbetween
  rw [List.append_assoc, List.append_cancel_left_eq] at heq
  cases between with
  | nil => exact hne (Move.enter.inj (List.cons.inj heq).1)
  | cons m between =>
    obtain ⟨rfl, rfl⟩ := List.cons.inj heq
    obtain ⟨left, hleft⟩ := hclosed name (by simp)
    refine h.others (.leave name left) ?_ rfl
    rcases List.mem_append.mp hleft with hleft | hleft
    · simp [hleft]
    · have hinner := hpre.subset (by simpa using hleft)
      simp [hinner]

theorem Evaluated.exists_madeAt (h : Evaluated p name d s ms before inner after scope)
    (hd : RouterChain (.within ⟨p, d.module, none⟩ none) d.item.value) :
    ∃ pre operators post, pre <+: inner ∧ Closed pre ∧
      ms = (before ++ .enter name :: pre) ++ .make operators :: post ∧
      scope = some (s.after (before ++ .enter name :: pre)).forest.size := by
  obtain ⟨pre, ⟨operators, post, hinner⟩, hclosed, hscope⟩ := h.run.exists_madeAt hd.makes_script
  refine ⟨pre, operators, post ++ .leave name scope :: after, ⟨_, hinner.symm⟩, hclosed, ?_, ?_⟩
  · simp [h.split, hinner]
  · rw [hscope, after_append, after_cons]

/-- Different statics whose values are routers of their own stand for different scopes. -/
theorem Evaluated.scope_ne (h : Evaluated p name d s ms before inner after scope)
    (h' : Evaluated p name' d' s ms before' inner' after' scope')
    (hd : RouterChain (.within ⟨p, d.module, none⟩ none) d.item.value)
    (hd' : RouterChain (.within ⟨p, d'.module, none⟩ none) d'.item.value) (hne : name ≠ name') :
    scope ≠ scope' := by
  obtain ⟨pre, _, _, hpre, hclosed, hms, rfl⟩ := h.exists_madeAt hd
  obtain ⟨pre', _, _, hpre', hclosed', hms', rfl⟩ := h'.exists_madeAt hd'
  intro heq
  have hplace := eq_of_size_eq hms hms' (Option.some.inj heq)
  rcases List.append_eq_append_iff.mp hplace with ⟨between, hb, -⟩ | ⟨between, hb, -⟩
  · exact h'.append_ne hne.symm hpre' hclosed hb hplace.symm
  · exact h.append_ne hne hpre hclosed' hb hplace

/-- A path is read as the static of its last segment. -/
theorem script_ofPath {path : Path} {locals : Locals} {n : Nat} {rights : Rights}
    (hpath : path.last? = some name)
    (hlocal : (path.ident?.bind fun name => List.lookup name locals) = none)
    (hl : s.statics.lookup name = some scope) :
    script (jumpWithin p (n + 1)) rights (Body.ofPath path locals) s = ((scope, locals), []) := by
  have hbody : Body.ofPath path locals = .static name fun scope => .done (scope, locals) := by
    rw [Body.ofPath, hlocal, hpath]
    rfl
  have hjump : jumpWithin p (n + 1) (.static name) s = (scope, []) := by
    rw [jumpWithin, static_apply, hl]
  rw [hbody]
  calc script (jumpWithin p (n + 1)) rights (.static name fun scope => .done (scope, locals)) s
      = (((jumpWithin p (n + 1) (.static name) s).1, locals),
          (jumpWithin p (n + 1) (.static name) s).2 ++ []) := rfl
    _ = ((scope, locals), []) := by rw [hjump, List.append_nil]

/-- The value of the first static of a name is replayed exactly once, and from then on every path
that ends in the name and means no local gives its scope. Statics of different names whose values
make routers of their own have different scopes, and whatever stands under a scope has been
registered under it. -/
theorem statics_once (p : Program) (entryPoints : List String) :
    (∀ name d, (p.statics.find? fun d => d.item.name == name) = some d →
      ∃ before inner after scope,
        Evaluated p name d {} (moves p entryPoints) before inner after scope ∧
        (ReplayState.ofProgram p entryPoints).statics.lookup name = some scope ∧
        ∀ k ≥ before.length + inner.length + 2, ∀ (path : Path) (locals : Locals) n rights,
          path.last? = some name →
          (path.ident?.bind fun name => List.lookup name locals) = none →
          script (jumpWithin p (n + 1)) rights (Body.ofPath path locals)
            (during p entryPoints k) = ((scope, locals), [])) ∧
    (∀ name name' d d', name ≠ name' →
      (p.statics.find? fun d => d.item.name == name) = some d →
      (p.statics.find? fun d => d.item.name == name') = some d' →
      RouterChain (.within ⟨p, d.module, none⟩ none) d.item.value →
      RouterChain (.within ⟨p, d'.module, none⟩ none) d'.item.value →
      (ReplayState.ofProgram p entryPoints).statics.lookup name ≠
        (ReplayState.ofProgram p entryPoints).statics.lookup name') ∧
    ∀ id child, child ∈ ((ReplayState.ofProgram p entryPoints).forest.scope id).children →
      .link id child ∈ moves p entryPoints := by
  refine ⟨fun name d hd => ?_, fun name name' d d' hne hd hd' hchain hchain' => ?_,
    fun id child hchild => ?_⟩
  · obtain ⟨before, inner, after, scope, he⟩ := exists_evaluated p entryPoints hd
    exact ⟨before, inner, after, scope, he, he.lookup_end, fun k hk path locals n rights hpath
      hlocal => script_ofPath hpath hlocal (he.lookup_after hk)⟩
  · obtain ⟨_, _, _, _, he⟩ := exists_evaluated p entryPoints hd
    obtain ⟨_, _, _, _, he'⟩ := exists_evaluated p entryPoints hd'
    rw [ReplayState.ofProgram, he.lookup_end, he'.lookup_end]
    exact fun heq => he.scope_ne he' hchain hchain' hne (Option.some.inj heq)
  · rcases mem_children_after (.empty p) (legal_moves p entryPoints) hchild with h | h
    · cases h
    · exact h

section Programs

/-- A router of a group that is made when it is first used. -/
def lazyRouter (path : String) : Expr :=
  .call (pathOf ["Lazy", "new"])
    [.closure [] [] (.macroCall (.mk { segments := ["router"] } false (some [groupOf path]) none))]

/-- Routers of two modules. The entry point registers a scope under the second one and serves
it. -/
def servingSecond (first second : String) : Program where
  statics :=
    [⟨["a"], { name := first, value := lazyRouter "/a" }⟩,
     ⟨["b"], { name := second, value := routerOf (groupOf "/b") }⟩]
  fns :=
    [fnIn [] "main"
      [.expr []
        (.methodCall (pathOf ["b", second]) "register" [] [] [routerOf (groupOf "/c")]) true,
       serveOf (pathOf ["b", second])]]

/-- With names of their own the routers are apart. -/
theorem statics_once_apart :
    let p := servingSecond "R" "S"
    let s := ReplayState.ofProgram p ["main"]
    (∃ before inner after,
      Evaluated p "S" ⟨["b"], { name := "S", value := routerOf (groupOf "/b") }⟩ {}
        (moves p ["main"]) before inner after (some 1)) ∧
    s.statics.lookup "R" ≠ s.statics.lookup "S" ∧
    2 ∈ (s.forest.scope 1).children ∧ .link 1 2 ∈ moves p ["main"] ∧
    "Group(/b) > Group(/c)" ∈ RouteTree.labels p ["main"] := by
  intro p s
  obtain ⟨honce, hne, hchildren⟩ := statics_once p ["main"]
  have hlazy : RouterChain (.within ⟨p, ["a"], none⟩ none) (lazyRouter "/a") :=
    .wrapped rfl (by decide) (by rfl) (.closure (.macroCall rfl))
  have hnew : RouterChain (.within ⟨p, ["b"], none⟩ none) (routerOf (groupOf "/b")) :=
    .new rfl (by decide)
  obtain ⟨before, inner, after, scope, he, hscope, -⟩ := honce "S" _ rfl
  have hone : s.statics.lookup "S" = some (some 1) := by decide +kernel
  obtain rfl := Option.some.inj (hscope.symm.trans hone)
  have hchild : 2 ∈ (s.forest.scope 1).children := by decide +kernel
  refine ⟨⟨before, inner, after, he⟩, hne "R" "S" _ _ (by decide) rfl rfl hlazy hnew, hchild,
    hchildren 1 2 hchild, ?_⟩
  simp only [RouteTree.mem_labels_iff]
  decide +kernel

/-- With one name for both there is one router, that of the first module. -/
theorem namesakes_share_scope :
    let p := servingSecond "S" "S"
    (moves p ["main"]).countP (fun m => m.static? == some "S") = 2 ∧
    (ReplayState.ofProgram p ["main"]).forest.size = 2 ∧
    "Group(/a) > Group(/c)" ∈ RouteTree.labels p ["main"] ∧
    "Group(/b) > Group(/c)" ∉ RouteTree.labels p ["main"] := by
  simp only [RouteTree.mem_labels_iff]
  decide +kernel

end Programs

end Replay

end ServiceContract
