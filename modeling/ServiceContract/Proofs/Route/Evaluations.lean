import ServiceContract.Proofs.Route.Levels
import ServiceContract.Proofs.Route.Nesting

/-! # How often bodies are evaluated

A call that binds nothing begins a function only if nothing has begun it before, and so does the
sweep. Only its turn as an entry point evaluates a function once more, and it always does. What a
body registers itself is bounded by how often it is evaluated.
-/

namespace ServiceContract

namespace Move

/-- Whether a function with a key is begun. -/
def begins (key : String) : Move → Bool
  | .begin f _ => f.key == key
  | _ => false

/-- Whether a function with a key is begun without bound parameters. -/
def evaluates (key : String) : Move → Bool
  | .begin _ (.bound _) => false
  | .begin f _ => f.key == key
  | _ => false

/-- Whether a function with a key is begun with bound parameters. -/
def binds (key : String) : Move → Bool
  | .begin f (.bound _) => f.key == key
  | _ => false

/-- The entry point whose turn begins. -/
def turn? : Move → Option FnDecl
  | .begin f .entry => some f
  | _ => none

/-- Whether an entry point with a key has its turn after it has been begun. -/
def repeats (key : String) (s : ReplayState) : Move → Bool
  | .begin f .entry => f.key == key && s.begun.contains key
  | _ => false

end Move

namespace ReplayState

/-- The number of moves of a kind, each one judged in the state in which it is made. -/
def countAlong (q : ReplayState → Move → Bool) : ReplayState → List Move → Nat
  | _, [] => 0
  | s, m :: ms => (if q s m then 1 else 0) + countAlong q (s.apply m) ms

variable {p : Program} {s : ReplayState} {ms : List Move} {key : String}

theorem countP_begins : ms.countP (Move.begins key) =
    ms.countP (Move.evaluates key) + ms.countP (Move.binds key) := by
  induction ms with
  | nil => rfl
  | cons m ms ih =>
    have hm : (if m.begins key then 1 else 0) =
        (if m.evaluates key then 1 else 0) + if m.binds key then 1 else 0 := by
      cases m with
      | begin f way => cases way <;> simp [Move.begins, Move.evaluates, Move.binds]
      | _ => rfl
    rw [List.countP_cons, List.countP_cons, List.countP_cons, hm, ih]
    omega

theorem mem_begun_apply {m : Move} :
    key ∈ (s.apply m).begun ↔ m.begins key = true ∨ key ∈ s.begun := by
  cases m with
  | begin f way => simp [mem_begun_begin, Move.begins, eq_comm (a := key)]
  | _ => simp [Move.begins, apply]

theorem begins_of_evaluates {m : Move} (h : m.evaluates key = true) : m.begins key = true := by
  cases m with
  | begin f way =>
    cases way with
    | bound => cases h
    | called | entry | remaining => exact h
  | _ => cases h

/-- Only the turn of an entry point begins a function again without bound parameters. -/
theorem repeats_of_evaluates {m : Move} (hm : s.Legal p m) (he : m.evaluates key = true)
    (hb : key ∈ s.begun) : m.repeats key s = true := by
  cases m with
  | begin f way =>
    cases way with
    | entry => simpa [Move.repeats, Move.evaluates, hb] using he
    | bound => cases he
    | called | remaining =>
      obtain rfl : f.key = key := by simpa [Move.evaluates] using he
      exact absurd hb (hm.2.2 rfl)
  | _ => cases he

theorem countP_evaluates_le (h : s.Along (Legal p) ms) :
    ms.countP (Move.evaluates key) ≤
      (if key ∈ s.begun then 0 else 1) + s.countAlong (Move.repeats key) ms := by
  induction ms generalizing s with
  | nil => simp
  | cons m ms ih =>
    obtain ⟨hm, hms⟩ := h
    have ih := ih hms
    rw [List.countP_cons, countAlong]
    by_cases hb : key ∈ s.begun
    · have hb' : key ∈ (s.apply m).begun := mem_begun_apply.mpr (.inr hb)
      rw [if_pos hb'] at ih
      rw [if_pos hb]
      by_cases he : m.evaluates key = true
      · rw [if_pos he, if_pos (repeats_of_evaluates hm he hb)]
        omega
      · rw [if_neg he]
        omega
    · rw [if_neg hb]
      by_cases he : m.evaluates key = true
      · rw [if_pos (mem_begun_apply.mpr (.inl (begins_of_evaluates he)))] at ih
        rw [if_pos he]
        omega
      · rw [if_neg he]
        split at ih <;> omega

end ReplayState

namespace Replay

open ReplayState

variable {p : Program} {t : Task} {s : ReplayState} {ms : List Move} {a : Option ScopeId}
  {key : String} {k n : Nat}

/-- The entry points that have a turn in a task. -/
def Jump.turn? : Jump → Option FnDecl
  | .function f .entry => some f
  | _ => none

def Task.entries : Task → List FnDecl
  | .script _ _ => []
  | .jump j => (Jump.turn? j).toList
  | .turns js => js.filterMap Jump.turn?

theorem Step.turn?_eq {rights : Rights} {body next : Script (Option ScopeId)} {m : Move}
    (h : Step rights s body m next) : m.turn? = none := by
  cases h <;> rfl

theorem entries_call {rights : Rights} {f : FnDecl} {args : List (Option ScopeId)} :
    (Task.jump (.function f (wayOf rights f args))).entries = [] := by
  unfold wayOf
  split <;> rfl

theorem entries_cons (j : Jump) (js : List Jump) :
    (Task.turns (j :: js)).entries = (Task.jump j).entries ++ (Task.turns js).entries := by
  simp only [Task.entries, List.filterMap_cons]
  cases Jump.turn? j <;> rfl

/-- An entry point is begun in its turn, whether or not it has been begun before, since nothing is
being replayed then. -/
theorem Runs.filterMap_turn? (h : Runs p t s ms a) (hs : t.entries = [] ∨ s.stack = []) :
    ms.filterMap Move.turn? = t.entries := by
  induction h with
  | done | asked | undeclared | idle => rfl
  | move hm _ ih =>
    rw [List.filterMap_cons_none hm.turn?_eq, ih (.inl rfl)]
    rfl
  | unserved _ _ ih => exact ih (.inl rfl)
  | static _ _ ih ih' =>
    rw [List.filterMap_append, ih (.inl rfl), ih' (.inl rfl)]
    rfl
  | call _ _ ih ih' =>
    rw [List.filterMap_append, ih (.inl entries_call), ih' (.inl rfl), entries_call]
    rfl
  | @known f way _ ho _ =>
    cases way with
    | entry => cases ho
    | called | bound | remaining => rfl
  | busy _ hstack =>
    rcases hs with hs | hs
    · exact hs.symm
    · simp [hs] at hstack
  | @body f way _ _ _ _ _ _ ih =>
    rw [List.filterMap_cons, List.filterMap_append, ih (.inl rfl)]
    cases way <;> rfl
  | value _ _ _ ih =>
    rw [List.filterMap_cons, List.filterMap_append, ih (.inl rfl)]
    rfl
  | turn hjump _ ih ih' =>
    rw [entries_cons, List.append_eq_nil_iff] at hs
    rw [List.filterMap_append, entries_cons, ih (hs.imp_left And.left),
      ih' (hs.imp And.right fun hs => hjump.keeps.stack.trans hs)]

/-- Every entry point is begun in its turn, also one that another entry point has called before it.
A function that is called and is an entry point is evaluated twice at least. -/
theorem entries_begun (p : Program) (entryPoints : List String) :
    (moves p entryPoints).filterMap Move.turn? = entries p entryPoints ∧
      ∀ f ∈ entries p entryPoints, .begin f .called ∈ moves p entryPoints →
        2 ≤ (moves p entryPoints).countP (Move.evaluates f.key) := by
  have hturns : (Task.turns (turns p entryPoints)).entries = entries p entryPoints := by
    simp [Task.entries, turns, Jump.turn?, List.filterMap_map, Function.comp_def]
  have hbegun := ((runs_moves p entryPoints).filterMap_turn? (.inr rfl)).trans hturns
  refine ⟨hbegun, fun f hf hcalled => ?_⟩
  have hentry : .begin f .entry ∈ moves p entryPoints := by
    rw [← hbegun] at hf
    obtain ⟨m, hm, hf⟩ := List.mem_filterMap.mp hf
    unfold Move.turn? at hf
    split at hf
    · cases hf
      exact hm
    · cases hf
  -- the turn of an entry point is one evaluation, and the call is another one
  have hpos (q : Move → Bool) {m : Move} (hm : m ∈ moves p entryPoints) (hq : q m = true)
      (he : m.evaluates f.key = true) :
      0 < ((moves p entryPoints).filter q).countP (Move.evaluates f.key) :=
    List.countP_pos_iff.mpr ⟨m, List.mem_filter.mpr ⟨hm, hq⟩, he⟩
  have hturn := hpos (fun m => m.turn?.isSome) hentry rfl (by simp [Move.evaluates])
  have hcall := hpos (fun m => !m.turn?.isSome) hcalled rfl (by simp [Move.evaluates])
  have hcount := List.countP_eq_countP_filter_add (moves p entryPoints) (Move.evaluates f.key)
    fun m => m.turn?.isSome
  omega

theorem Step.registered_cons {rights : Rights} {body next : Script (Option ScopeId)} {m : Move}
    (h : Step rights s body m next) (js : List Jump) :
    registered key js (m :: ms) =
      (if js.head?.bind Jump.key? = some key then m.registrations else 0) +
        registered key js ms := by
  rw [registered, h.opened]

theorem Step.countP_begins_cons {rights : Rights} {body next : Script (Option ScopeId)} {m : Move}
    (h : Step rights s body m next) :
    (m :: ms).countP (Move.begins key) = ms.countP (Move.begins key) := by
  cases h <;> exact List.countP_cons_of_neg Bool.false_ne_true

theorem countP_begins_body {f : FnDecl} {way : Way} :
    (Move.begin f way :: (ms ++ [.finish f way a])).countP (Move.begins key) =
      ms.countP (Move.begins key) + if f.key = key then 1 else 0 := by
  simp [List.countP_cons, Move.begins]

theorem countP_begins_value {name : String} :
    (Move.enter name :: (ms ++ [.leave name a])).countP (Move.begins key) =
      ms.countP (Move.begins key) := by
  simp [Move.begins]

/-- Within a run a body registers at most what is written in it, every time that it is begun; what
the task itself registers comes on top if it is part of such a body. -/
theorem Runs.registered_le (h : Runs p t s ms a) (hs : s.Sound p) (ht : t.Fits p s.forest.size k)
    (hn : ∀ f ∈ p.fns, f.key = key → Body.written (Body.walk.stmts f.body) ≤ n)
    (above : List Jump) : registered key above ms ≤
      (if above.head?.bind Jump.key? = some key then k else 0) +
        n * ms.countP (Move.begins key) := by
  induction h generalizing k above with
  | done | known | busy | asked | undeclared | idle => exact Nat.zero_le _
  | move hm _ ih =>
    obtain ⟨hlegal, l, rfl, hnext⟩ := hm.fits ht
    have hle := ih (hs.apply hlegal) hnext above
    rw [hm.registered_cons, hm.countP_begins_cons]
    split at hle
    · next hhead =>
      rw [if_pos hhead, if_pos hhead]
      omega
    · next hhead =>
      rw [if_neg hhead, if_neg hhead]
      omega
  | unserved _ _ ih => exact ih hs ht.2 above
  | @static rights name next s ms ms' scope a hjump _ ih ih' =>
    obtain ⟨hms, hscope⟩ := hjump.legal (k := 0) hs trivial
    have hle := ih (k := 0) hs trivial above
    have hle' := ih' (hs.after hms) (ht _ hjump.keeps.size _ hscope) above
    rw [registered_append, hjump.opened, List.countP_append, Nat.mul_add]
    simp only [ite_self] at hle
    omega
  | @call rights f args next s ms ms' scope a hjump _ ih ih' =>
    obtain ⟨hf, hargs, ht⟩ := ht
    have hfits : (Task.jump (.function f (wayOf rights f args))).Fits p s.forest.size 0 :=
      ⟨hf, known_params_wayOf hargs⟩
    obtain ⟨hms, hscope⟩ := hjump.legal hs hfits
    have hle := ih hs hfits above
    have hle' := ih' (hs.after hms) (ht _ hjump.keeps.size _ hscope) above
    rw [registered_append, hjump.opened, List.countP_append, Nat.mul_add]
    simp only [ite_self] at hle
    omega
  | @body f way s ms a hnew hstack hbody ih =>
    have hm : s.Legal p (.begin f way) := ⟨ht.1, hstack, hnew⟩
    have hle := ih (hs.apply hm) (f.fits_script ht.2) (.function f way :: above)
    rw [registered_body, countP_begins_body]
    simp only [List.head?_cons, Option.bind_some, Jump.key?, Option.some.injEq] at hle
    by_cases hkey : f.key = key
    · have hwritten := hn f ht.1 hkey
      simp only [hkey, if_true, Nat.mul_add] at hle ⊢
      omega
    · simp only [hkey, if_false, Nat.add_zero] at hle ⊢
      omega
  | @value name d s ms a hl hd hbody ih =>
    have hm : s.Legal p (.enter name) := legal_enter hl hd
    have hle := ih (hs.apply hm) d.fits_script (.static name :: above)
    rw [registered_value, countP_begins_value]
    simp only [List.head?_cons, Option.bind_some, Jump.key?, reduceCtorEq, if_false] at hle
    omega
  | @turn j js s ms ms' a hjump _ ih ih' =>
    obtain ⟨hj, hjs⟩ := List.forall_mem_cons.mp ht
    have hms := (hjump.legal (k := 0) hs (hj _)).1
    have hle := ih (k := 0) hs (hj _) above
    have hle' := ih' (k := 0) (hs.after hms) hjs above
    rw [registered_append, hjump.opened, List.countP_append, Nat.mul_add]
    simp only [ite_self] at hle hle'
    omega

end Replay

end ServiceContract
