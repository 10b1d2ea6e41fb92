import ServiceContract.Proofs.Route.Sound

/-! # How bodies nest

The bodies and values that are open at a time stand one inside the other. What is brought to its end
is what was opened last, and a run closes all that it opens.
-/

namespace ServiceContract

/-- What is open after a move, the innermost first. -/
def Move.opened (js : List Jump) : Move → List Jump
  | .begin f way => .function f way :: js
  | .enter name => .static name :: js
  | .finish _ _ _ => js.tail
  | .leave _ _ => js.tail
  | _ => js

/-- A move brings nothing to its end but what was opened last. -/
def Move.Closes (js : List Jump) : Move → Prop
  | .finish f way _ => js.head? = some (.function f way)
  | .leave name _ => js.head? = some (.static name)
  | _ => True

/-- The key of the function whose body it is. -/
def Jump.key? : Jump → Option String
  | .function f _ => some f.key
  | .static _ => none

namespace ReplayState

def opened (js : List Jump) (ms : List Move) : List Jump := ms.foldl Move.opened js

def Matched : List Jump → List Move → Prop
  | _, [] => True
  | js, m :: ms => m.Closes js ∧ Matched (m.opened js) ms

/-- The registrations that are made right inside a body of a function with a key. -/
def registered (key : String) : List Jump → List Move → Nat
  | _, [] => 0
  | js, m :: ms => (if js.head?.bind Jump.key? = some key then m.registrations else 0) +
    registered key (m.opened js) ms

variable {s : ReplayState} {m : Move} {ms ms' : List Move} {js : List Jump} {f : FnDecl} {way : Way}
  {key : String}

theorem opened_append : opened js (ms ++ ms') = opened (opened js ms) ms' := List.foldl_append

theorem matched_append : Matched js (ms ++ ms') ↔ Matched js ms ∧ Matched (opened js ms) ms' := by
  induction ms generalizing js with
  | nil => simp [Matched, opened]
  | cons m ms ih => simp [Matched, ih, and_assoc, opened]

theorem Matched.take (h : Matched js ms) (k : Nat) : Matched js (ms.take k) := by
  rw [← List.take_append_drop k ms, matched_append] at h
  exact h.1

theorem registered_append : registered key js (ms ++ ms') =
    registered key js ms + registered key (opened js ms) ms' := by
  induction ms generalizing js with
  | nil => simp [registered, opened]
  | cons m ms ih => simp [registered, ih, Nat.add_assoc, opened]

theorem stack_apply (h : s.stack = js.filterMap Jump.key?) (hm : m.Closes js) :
    (s.apply m).stack = (m.opened js).filterMap Jump.key? := by
  cases m with
  | begin f way => simp [apply, Move.opened, Jump.key?, h]
  | finish f way a =>
    cases js with
    | nil => cases hm
    | cons j js =>
      obtain rfl : j = .function f way := by simpa [Move.Closes] using hm
      simp [apply, Move.opened, Jump.key?, h]
  | leave name a =>
    cases js with
    | nil => cases hm
    | cons j js =>
      obtain rfl : j = .static name := by simpa [Move.Closes] using hm
      exact h
  | make | link | attach | serve | enter => exact h

theorem registered_body {a : Option ScopeId} :
    registered key js (.begin f way :: (ms ++ [.finish f way a])) =
      registered key (.function f way :: js) ms := by
  simp [registered, registered_append, Move.registrations, Move.opened]

theorem registered_value {name : String} {a : Option ScopeId} :
    registered key js (.enter name :: (ms ++ [.leave name a])) =
      registered key (.static name :: js) ms := by
  simp [registered, registered_append, Move.registrations, Move.opened]

/-- The stack has the keys of the functions that are open. -/
theorem stack_after (h : s.stack = js.filterMap Jump.key?) (hm : Matched js ms) :
    (s.after ms).stack = (opened js ms).filterMap Jump.key? := by
  induction ms generalizing s js with
  | nil => exact h
  | cons m ms ih => exact ih (stack_apply h hm.1) hm.2

theorem mem_opened_or_eq_finish (hm : m.Closes js) (hf : .function f way ∈ js) :
    .function f way ∈ m.opened js ∨ ∃ a, m = .finish f way a := by
  cases m with
  | begin | enter => exact .inl (List.mem_cons_of_mem _ hf)
  | finish g w a =>
    cases js with
    | nil => cases hf
    | cons j js =>
      obtain rfl : j = .function g w := by simpa [Move.Closes] using hm
      rcases List.mem_cons.mp hf with heq | hf
      · cases heq
        exact .inr ⟨a, rfl⟩
      · exact .inl hf
  | leave name a =>
    cases js with
    | nil => cases hf
    | cons j js =>
      obtain rfl : j = .static name := by simpa [Move.Closes] using hm
      exact .inl (by simpa [Move.opened] using hf)
  | make | link | attach | serve => exact .inl hf

/-- A body that was open at first or has been begun is still open, or it has been finished. -/
theorem mem_opened_or_finish (hm : Matched js ms) {k : Nat}
    (hf : .function f way ∈ js ∨ .begin f way ∈ ms.take k) :
    .function f way ∈ opened js (ms.take k) ∨ ∃ a, .finish f way a ∈ ms.take k := by
  induction ms generalizing js k with
  | nil => simpa [opened] using hf
  | cons m ms ih =>
    cases k with
    | zero => simpa [opened] using hf
    | succ k =>
      have hnext : (.function f way ∈ m.opened js ∨ .begin f way ∈ ms.take k) ∨
          ∃ a, m = .finish f way a := by
        rw [List.take_succ_cons, List.mem_cons] at hf
        rcases hf with hopen | rfl | hbegin
        · exact (mem_opened_or_eq_finish hm.1 hopen).imp_left .inl
        · exact .inl (.inl List.mem_cons_self)
        · exact .inl (.inr hbegin)
      rcases hnext with hlater | ⟨a, rfl⟩
      · exact (ih hm.2 hlater).imp_right fun ⟨a, ha⟩ => ⟨a, List.mem_cons_of_mem _ ha⟩
      · exact .inr ⟨a, List.mem_cons_self⟩

end ReplayState

namespace Replay

open ReplayState

variable {p : Program} {t : Task} {s : ReplayState} {m : Move} {ms : List Move}
  {a : Option ScopeId} {rights : Rights} {body next : Script (Option ScopeId)}

theorem Step.opened (h : Step rights s body m next) (js : List Jump) : m.opened js = js := by
  cases h <;> rfl

theorem Step.closes (h : Step rights s body m next) (js : List Jump) : m.Closes js := by
  cases h <;> trivial

/-- A run closes all that it opens. -/
theorem Runs.opened (h : Runs p t s ms a) (js : List Jump) : opened js ms = js := by
  induction h generalizing js with
  | done | known | busy | asked | undeclared | idle => rfl
  | move hm _ ih => exact (congrArg (List.foldl Move.opened · _) (hm.opened js)).trans (ih js)
  | unserved _ _ ih => exact ih js
  | static _ _ ih ih' | call _ _ ih ih' | turn _ _ ih ih' => rw [opened_append, ih, ih']
  | @body f way _ _ _ _ _ _ ih =>
    exact opened_append.trans (congrArg List.tail (ih (.function f way :: js)))
  | @value name _ _ _ _ _ _ _ ih =>
    exact opened_append.trans (congrArg List.tail (ih (.static name :: js)))

theorem Runs.matched (h : Runs p t s ms a) (js : List Jump) : Matched js ms := by
  induction h generalizing js with
  | done | known | busy | asked | undeclared | idle => trivial
  | move hm _ ih => exact ⟨hm.closes js, ih _⟩
  | unserved _ _ ih => exact ih js
  | static h _ ih ih' | call h _ ih ih' | turn h _ ih ih' =>
    exact matched_append.mpr ⟨ih js, ih' _⟩
  | body _ _ h ih =>
    exact ⟨trivial,
      matched_append.mpr ⟨ih _, (congrArg List.head? (h.opened _)).trans rfl, trivial⟩⟩
  | value _ _ h ih =>
    exact ⟨trivial,
      matched_append.mpr ⟨ih _, (congrArg List.head? (h.opened _)).trans rfl, trivial⟩⟩

end Replay

end ServiceContract
