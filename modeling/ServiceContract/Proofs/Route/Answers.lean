import ServiceContract.Proofs.Route.Order

/-! # Answers of functions that have been replayed

A call of a function that has been replayed gives the scope that its body gave when a call without
bound parameters began it. Whatever else has replayed the function leaves no answer.
-/

namespace ServiceContract.ReplayState

open Replay

variable {p : Program} {s : ReplayState} {ms : List Move}

/-- The answer of a function is the scope that it gave when a call began it. -/
theorem lookup_returned_iff (hms : Along (Legal p) s ms) {key : String} {a : Option ScopeId} :
    (s.after ms).returned.lookup key = some a ↔
      s.returned.lookup key = some a ∨ ∃ g, g.key = key ∧ .finish g .called a ∈ ms := by
  induction ms generalizing s with
  | nil => simp
  | cons m ms ih =>
    obtain ⟨hm, hms⟩ := hms
    rw [after_cons, ih hms]
    cases m with
    | finish g w b =>
      cases w with
      | called =>
        have hnone : s.returned.lookup g.key = none := hm.2.1 rfl
        have hcons : (∃ f, f.key = key ∧ .finish f .called a ∈ .finish g .called b :: ms) ↔
            (g.key = key ∧ b = a) ∨ ∃ f, f.key = key ∧ .finish f .called a ∈ ms := by
          simp [and_or_left, exists_or, eq_comm (a := a)]
        rw [hcons, ← or_assoc]
        refine or_congr_left ?_
        rw [apply, lookup_setKey]
        by_cases hkey : key = g.key
        · simp [hkey, hnone]
        · simp [hkey, Ne.symm hkey]
      | bound | entry | remaining => simp [apply]
    | _ => simp [apply]

end ServiceContract.ReplayState

namespace ServiceContract.Replay

open ReplayState

/-- What a call without bound parameters gives when the function has been begun before and is not
being replayed: nothing is replayed again; the answer is a scope exactly if an earlier call without
bound parameters gave this scope, and if there was such a call, then it has come to an end, and the
answer is what it gave. -/
theorem function_called (p : Program) (entryPoints : List String) (k : Nat) (f : FnDecl)
    (jump : Jump → Replay (Option ScopeId)) (hb : f.key ∈ (during p entryPoints k).begun)
    (hs : f.key ∉ (during p entryPoints k).stack) :
    function jump p f .called (during p entryPoints k) =
        ((during p entryPoints k).answer f.key, []) ∧
      (∀ id, (during p entryPoints k).answer f.key = some id ↔
        ∃ g, g.key = f.key ∧ .finish g .called (some id) ∈ (moves p entryPoints).take k) ∧
      ∀ g, g.key = f.key → .begin g .called ∈ (moves p entryPoints).take k →
        ∃ a, .finish g .called a ∈ (moves p entryPoints).take k ∧
          (during p entryPoints k).answer f.key = a := by
  have hlegal := (legal_moves p entryPoints).take k
  have hreturned : ∀ a, (during p entryPoints k).returned.lookup f.key = some a ↔
      ∃ g, g.key = f.key ∧ .finish g .called a ∈ (moves p entryPoints).take k := fun a =>
    (lookup_returned_iff hlegal).trans (by simp)
  refine ⟨?_, fun id => ?_, fun g hg hbegin => ?_⟩
  · rw [function_apply, if_pos ⟨rfl, hb⟩]
  · rw [answer, Option.join_eq_some_iff, hreturned]
  · have hmatched : Matched [] (moves p entryPoints) := (runs_moves p entryPoints).matched []
    rcases mem_opened_or_finish hmatched (.inr hbegin) with hopen | ⟨a, ha⟩
    · have hstack : (during p entryPoints k).stack =
          (opened [] ((moves p entryPoints).take k)).filterMap Jump.key? :=
        stack_after rfl (hmatched.take k)
      refine absurd ?_ hs
      rw [hstack, ← hg]
      exact List.mem_filterMap.mpr ⟨_, hopen, rfl⟩
    · refine ⟨a, ha, ?_⟩
      rw [answer, (hreturned a).mpr ⟨g, hg, ha⟩]
      rfl

section Programs

/-- A function that gives a scope. -/
def givingRouter (name path : String) : FnDecl :=
  fnIn [] name [.expr [] (routerOf (groupOf path)) false]

/-- A function that gives a scope is called twice. -/
def callingTwice : Program where
  fns :=
    [fnIn [] "main" [.expr [] (callOf "health") true, serveOf (callOf "health")],
     givingRouter "health" "/health"]

/-- The second call gives the scope of the first one. -/
theorem function_called_health :
    let p := callingTwice
    let f := givingRouter "health" "/health"
    let s := during p ["main"] 4
    f.key ∈ s.begun ∧ f.key ∉ s.stack ∧
      function (jumpWithin p 2) p f .called s = (s.answer f.key, []) ∧ s.answer f.key = some 0 ∧
      ∃ g, g.key = f.key ∧ .finish g .called (some 0) ∈ (moves p ["main"]).take 4 := by
  intro p f s
  have hb : f.key ∈ s.begun := by decide +kernel
  have hs : f.key ∉ s.stack := by decide +kernel
  have ha : s.answer f.key = some 0 := by decide +kernel
  obtain ⟨hcall, hanswer, -⟩ := function_called p ["main"] 4 f (jumpWithin p 2) hb hs
  exact ⟨hb, hs, hcall, ha, (hanswer 0).mp ha⟩

/-- An entry point serves the scope that another function gives. -/
def servingGiven (fns : FnDecl → FnDecl → List FnDecl) : Program where
  fns := fns (fnIn [] "main" [serveOf (callOf "init")]) (givingRouter "init" "/b")

/-- What a turn as an entry point has given is not known to a call: where `init` has its turn before
`main` calls it, nothing is served, and the scope is served where `init` is no entry point, or is
declared after `main`. -/
theorem function_called_init_none :
    let p := servingGiven fun main init => [init, main]
    let f := givingRouter "init" "/b"
    let s := during p ["main", "init"] 4
    ((moves p ["main", "init"]).take 4).any (fun m => match m with
      | .finish g .entry scope => g.key == f.key && scope == some 0
      | _ => false) = true ∧
    f.key ∈ s.begun ∧ f.key ∉ s.stack ∧ (function (jumpWithin p 2) p f .called s).1 = none ∧
    "Group(/b)" ∉ RouteTree.labels p ["main", "init"] ∧
    "Group(/b)" ∈ RouteTree.labels p ["main"] ∧
    "Group(/b)" ∈ RouteTree.labels (servingGiven fun main init => [main, init])
      ["main", "init"] := by
  simp only [RouteTree.mem_labels_iff]
  decide +kernel

end Programs

end ServiceContract.Replay
