import ServiceContract.Proofs.Route.Sound

/-! # Levels suffice

A body goes one level down from the body that calls it. The functions that are being replayed are
all different, and so are the statics that have been asked for, so that a program has as many levels
as its bodies can need, and its moves are those of a run.
-/

namespace ServiceContract

open ReplayState

namespace ReplayState.Sound

variable {p : Program} {s : ReplayState}

theorem length_stack_le (h : s.Sound p) : s.stack.length ≤ p.fns.length := by
  have hsub : s.stack ⊆ p.fns.map FnDecl.key := fun key hk =>
    List.mem_map.mpr (h.begun_declared key (h.stack_begun key hk))
  exact Nat.le_trans (h.stack_nodup.length_le_of_subset hsub) (Nat.le_of_eq (List.length_map _))

theorem length_statics_le (h : s.Sound p) : s.statics.length ≤ p.statics.length := by
  have hsub : s.statics.map Prod.fst ⊆ p.statics.map fun d => d.item.name := fun name hn => by
    obtain ⟨e, he, rfl⟩ := List.mem_map.mp hn
    exact List.mem_map.mpr (h.statics_declared e he)
  simpa using h.statics_nodup.length_le_of_subset hsub

end ReplayState.Sound

namespace Replay

/-- How many functions are not being replayed and how many statics have not been asked for. -/
def free (p : Program) (s : ReplayState) : Nat :=
  (p.fns.length - s.stack.length) + (p.statics.length - s.statics.length)

variable {p : Program} {s s' : ReplayState} {n : Nat}

/-- What is settled stays asked for, and the stack is as it was. -/
theorem free_le_of_keeps (hs : s.Sound p) (h : Keeps s s') : free p s' ≤ free p s := by
  have hsub : s.statics.map Prod.fst ⊆ s'.statics.map Prod.fst := fun name hn => by
    obtain ⟨e, he, rfl⟩ := List.mem_map.mp hn
    exact mem_keys_of_lookup (h.statics e.1 e.2 (lookup_of_mem hs.statics_nodup he))
  have hlen := hs.statics_nodup.length_le_of_subset hsub
  simp only [List.length_map] at hlen
  rw [free, free, h.stack]
  omega

theorem free_begin {f : FnDecl} {way : Way} (hs : s.Sound p) (hm : s.Legal p (.begin f way)) :
    free p (s.apply (.begin f way)) < free p s := by
  have hle := (hs.apply hm).length_stack_le
  simp only [free, apply, List.length_cons] at hle ⊢
  omega

theorem free_enter {name : String} (hs : s.Sound p) (hm : s.Legal p (.enter name)) :
    free p (s.apply (.enter name)) < free p s := by
  have hle := (hs.apply hm).length_statics_le
  have hlen : (setKey name none s.statics).length = s.statics.length + 1 := by
    have hkeys : (setKey name none s.statics).map Prod.fst = s.statics.map Prod.fst ++ [name] :=
      map_fst_setKey.trans (if_neg (lookup_eq_none_iff.mp hm.1))
    simpa using congrArg List.length hkeys
  simp only [free, apply, hlen] at hle ⊢
  omega

section Equations

variable {jump : Jump → Replay (Option ScopeId)} {rights : Rights} {id : ScopeId}
  {next : Script (Option ScopeId)} {f : FnDecl} {way : Way} {name : String}

theorem script_serve (h : rights.serves = true) : script jump rights (.serve id next) s =
    ((script jump rights next (s.apply (.serve id))).1,
      .serve id :: (script jump rights next (s.apply (.serve id))).2) := by
  rw [script, if_pos h]
  rfl

theorem script_serve_of_not (h : rights.serves = false) :
    script jump rights (.serve id next) s = script jump rights next s := by
  rw [script, if_neg (by simp [h])]

theorem function_apply : function jump p f way s =
    if way.once = true ∧ f.key ∈ s.begun then (s.answer f.key, [])
    else if f.key ∈ s.stack then (none, [])
    else
      let run := script jump way.rights (f.script p way.params) (s.apply (.begin f way))
      (run.1, .begin f way :: (run.2 ++ [.finish f way run.1])) := by
  show (if way.once && s.begun.contains f.key then _
    else if s.stack.contains f.key then _ else _ : Replay (Option ScopeId)) s = _
  simp only [Bool.and_eq_true, List.contains_iff_mem]
  split
  · rfl
  · split <;> rfl

theorem static_apply : static jump p name s =
    match s.statics.lookup name with
    | some known => (known, [])
    | none =>
      match p.statics.find? fun d => d.item.name == name with
      | none => (none, [])
      | some d =>
        let run := script jump {} (d.script p) (s.apply (.enter name))
        (run.1, .enter name :: (run.2 ++ [.leave name run.1])) := by
  show (match s.statics.lookup name with | some known => _ | none => _ : Replay _) s = _
  cases s.statics.lookup name with
  | some known => rfl
  | none => cases p.statics.find? fun d => d.item.name == name <;> rfl

end Equations

/-- Where fewer functions and statics are free than there are levels, jumps through the levels are
runs. -/
def Reach (p : Program) (n : Nat) : Prop :=
  ∀ j s, s.Sound p → j.Fits p s.forest.size → free p s < n →
    Runs p (.jump j) s (jumpWithin p n j s).2 (jumpWithin p n j s).1

theorem Reach.script (h : Reach p n) (rights : Rights) (body : Script (Option ScopeId)) :
    ∀ s k, s.Sound p → body.Fits (· ∈ p.fns) Known s.forest.size k → free p s < n →
      Runs p (.script rights body) s (script (jumpWithin p n) rights body s).2
        (script (jumpWithin p n) rights body s).1 := by
  induction body with
  | done a => exact fun _ _ _ _ _ => .done
  | make operators next ih =>
    intro s k hs hb hf
    have hstep : Step rights s (.make operators next) _ _ := .make
    obtain ⟨hm, l, -, hb⟩ := hstep.fits hb
    exact .move hstep (ih _ _ l (hs.apply hm) hb hf)
  | link parent child next ih =>
    intro s k hs hb hf
    have hstep : Step rights s (.link parent child next) _ _ := .link
    obtain ⟨hm, l, -, hb⟩ := hstep.fits hb
    exact .move hstep (ih _ l (hs.apply hm) hb hf)
  | attach id operators next ih =>
    intro s k hs hb hf
    have hstep : Step rights s (.attach id operators next) _ _ := .attach
    obtain ⟨hm, l, -, hb⟩ := hstep.fits hb
    exact .move hstep (ih _ l (hs.apply hm) hb hf)
  | serve id next ih =>
    intro s k hs hb hf
    cases hserves : rights.serves with
    | true =>
      obtain ⟨hm, l, -, hb⟩ := (Step.serve hserves).fits hb
      rw [script_serve hserves]
      exact .move (.serve hserves) (ih _ l (hs.apply hm) hb hf)
    | false =>
      rw [script_serve_of_not hserves]
      exact .unserved hserves (ih s k hs hb.2 hf)
  | static name next ih =>
    intro s k hs hb hf
    have hjump := h (.static name) s hs trivial hf
    obtain ⟨hms, hscope⟩ := hjump.legal (k := 0) hs trivial
    have hkeeps := hjump.keeps
    exact .static hjump (ih _ _ k (hs.after hms) (hb _ hkeeps.size _ hscope)
      (Nat.lt_of_le_of_lt (free_le_of_keeps hs hkeeps) hf))
  | call f args next ih =>
    intro s k hs hb hf
    have hfits : (Jump.function f (wayOf rights f args)).Fits p s.forest.size :=
      ⟨hb.1, known_params_wayOf hb.2.1⟩
    have hjump := h _ s hs hfits hf
    obtain ⟨hms, hscope⟩ := hjump.legal (k := 0) hs hfits
    have hkeeps := hjump.keeps
    exact .call hjump (ih _ _ k (hs.after hms) (hb.2.2 _ hkeeps.size _ hscope)
      (Nat.lt_of_le_of_lt (free_le_of_keeps hs hkeeps) hf))

/-- This is so for any number of levels: a body has one level less, and so much less is free. -/
theorem reach (p : Program) : ∀ n, Reach p n
  | 0 => fun _ _ _ _ hf => absurd hf (Nat.not_lt_zero _)
  | n + 1 => fun j s hs hj hf => by
    have ih := (reach p n).script
    cases j with
    | function f way =>
      rw [jumpWithin, function_apply]
      split
      · next hn => exact .known hn.1 hn.2
      · next hn =>
        have hn : way.once = true → f.key ∉ s.begun := fun ho hb => hn ⟨ho, hb⟩
        split
        · next hstack => exact .busy hn hstack
        · next hstack =>
          have hm : s.Legal p (.begin f way) := ⟨hj.1, hstack, hn⟩
          exact .body hn hstack (ih _ _ _ _ (hs.apply hm) (f.fits_script hj.2)
            (Nat.lt_of_lt_of_le (free_begin hs hm) (Nat.le_of_lt_succ hf)))
    | static name =>
      rw [jumpWithin, static_apply]
      split
      · next hl => exact .asked hl
      · next hl =>
        split
        · next hd => exact .undeclared hl hd
        · next d hd =>
          have hm : s.Legal p (.enter name) := legal_enter hl hd
          exact .value hl hd (ih _ _ _ _ (hs.apply hm) d.fits_script
            (Nat.lt_of_lt_of_le (free_enter hs hm) (Nat.le_of_lt_succ hf)))

theorem runs_inTurn {js : List Jump} (hjs : ∀ j ∈ js, ∀ m, j.Fits p m) (hs : s.Sound p)
    (hf : free p s < n) : Runs p (.turns js) s (inTurn (jumpWithin p n) js s).2 none := by
  induction js generalizing s with
  | nil => exact .idle
  | cons j js ih =>
    obtain ⟨hj, hjs⟩ := List.forall_mem_cons.mp hjs
    have hjump := reach p n j s hs (hj _) hf
    exact .turn hjump (ih hjs (hs.after (hjump.legal (k := 0) hs (hj _)).1)
      (Nat.lt_of_le_of_lt (free_le_of_keeps hs hjump.keeps) hf))

theorem fits_turns (p : Program) (entryPoints : List String) :
    ∀ j ∈ turns p entryPoints, ∀ m, j.Fits p m := by
  intro j hj m
  rcases List.mem_append.mp hj with hj | hj
  · rcases List.mem_append.mp hj with hj | hj
    · obtain ⟨d, -, rfl⟩ := List.mem_map.mp hj
      trivial
    · obtain ⟨f, hf, rfl⟩ := List.mem_map.mp hj
      exact ⟨List.mem_of_mem_filter hf, fun _ h => nomatch h⟩
  · obtain ⟨f, hf, rfl⟩ := List.mem_map.mp hj
    exact ⟨hf, fun _ h => nomatch h⟩

/-- The moves of a program are those of a run of all its turns. -/
theorem runs_moves (p : Program) (entryPoints : List String) :
    Runs p (.turns (turns p entryPoints)) {} (moves p entryPoints) none :=
  runs_inTurn (fits_turns p entryPoints) (.empty p) (Nat.lt_succ_of_le (Nat.le_refl _))

end Replay

namespace ReplayState

/-- What is known after so many moves of a program. -/
def during (p : Program) (entryPoints : List String) (k : Nat) : ReplayState :=
  after {} ((Replay.moves p entryPoints).take k)

variable (p : Program) (entryPoints : List String)

theorem legal_moves : Along (Legal p) {} (Replay.moves p entryPoints) :=
  ((Replay.runs_moves p entryPoints).legal (k := 0) (.empty p) (Replay.fits_turns p entryPoints)).1

theorem sound_during (k : Nat) : (during p entryPoints k).Sound p :=
  (Sound.empty p).after ((legal_moves p entryPoints).take k)

/-- Between two states of a program its legal moves lead from one to the other. -/
theorem exists_after_during (k j : Nat) : ∃ ms, (during p entryPoints k).Along (Legal p) ms ∧
    during p entryPoints (k + j) = (during p entryPoints k).after ms := by
  have h := (legal_moves p entryPoints).take (k + j)
  rw [List.take_add, along_append] at h
  refine ⟨_, h.2, ?_⟩
  rw [during, List.take_add, after_append]
  rfl

/-- Whatever a program registers, and in whatever order, its scopes are a forest at all times: the
children of a scope are those whose parent it is, no scope has two places, looking for ancestors
goes up to a top and no further, and a scope keeps the place that it once has. -/
theorem isForest_during (k j : Nat) :
    (during p entryPoints k).forest.IsForest ∧
      (∀ c id, (during p entryPoints k).forest.isAncestor c id = true ↔
        ∃ ids, (during p entryPoints k).forest.Climbs id ids ∧ c ∈ ids) ∧
      (during p entryPoints k).forest.PlacesKept (during p entryPoints (k + j)).forest := by
  have hs := sound_during p entryPoints k
  obtain ⟨ms, hms, heq⟩ := exists_after_during p entryPoints k j
  exact ⟨hs.forest, fun _ _ => hs.forest.isAncestor_iff, heq ▸ placesKept_after hs hms⟩

end ReplayState

/-- Replaying comes to an end for every program and all entry points: there is one run of all turns,
in which nothing is cut off at a level, and looking for ancestors in any of its states comes to a
top. -/
theorem Replay.terminates (p : Program) (entryPoints : List String) :
    (∀ ms a, Runs p (.turns (turns p entryPoints)) {} ms a ↔
      ms = moves p entryPoints ∧ a = none) ∧
      ∀ k id, ∃ ids, (ReplayState.during p entryPoints k).forest.Climbs id ids := by
  refine ⟨fun ms a => ⟨fun h => h.unique (runs_moves p entryPoints), ?_⟩, fun k id => ?_⟩
  · rintro ⟨rfl, rfl⟩
    exact runs_moves p entryPoints
  · obtain ⟨ids, h, -⟩ := (sound_during p entryPoints k).forest.climbs id
    exact ⟨ids, h⟩

end ServiceContract
