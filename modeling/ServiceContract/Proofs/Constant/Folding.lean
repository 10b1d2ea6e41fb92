import ServiceContract.Constant.Scope
import Mathlib.Algebra.Group.Int.Defs
import Mathlib.Logic.Relation

/-! # Folding without a limit

Without a limit on the levels, folding is a relation with one rule for each form of expression: the
values of the operands are premises, and arithmetic is exact. A limit only takes values away. As
folding goes one level down to each operand, what folds never leads back to itself.
-/

namespace ServiceContract

open Source Relation

namespace Constant

/-- A whole number is one of 64 bits with a sign. -/
def Fits : Constant → Prop
  | int n => -2 ^ 63 ≤ n ∧ n < 2 ^ 63
  | str _ | bool _ => True

/-- The exact result of an operation on whole numbers; a quotient is cut off toward zero. -/
def result? : BinaryOp → Int → Int → Option Int
  | .add, a, b => some (a + b)
  | .sub, a, b => some (a - b)
  | .mul, a, b => some (a * b)
  | .div, a, b => if b = 0 then none else some (a.tdiv b)
  | .compare, _, _ | .other, _, _ => none

variable {op : BinaryOp} {a b v : Constant} {m n k : Int}

theorem inRange_iff : inRange n = true ↔ (int n).Fits := by
  have hmin : Int64.minValue.toInt = -2 ^ 63 := by decide
  have hmax : Int64.maxValue.toInt = 2 ^ 63 - 1 := by decide
  rw [inRange, Bool.and_eq_true, decide_eq_true_iff, decide_eq_true_iff, hmin, hmax, Fits,
    Int.le_sub_one_iff]

theorem checked_eq_some : checked n = some v ↔ (int n).Fits ∧ v = int n := by
  rw [← inRange_iff, checked]
  split <;> simp [*, eq_comm]

theorem binary_int : binary op (int m) (int n) = (result? op m n).bind checked := by
  cases op with
  | add | sub | mul | compare | other => rfl
  | div =>
    rw [binary, result?]
    split <;> rfl

theorem binary_int_eq_some : binary op (int m) (int n) = some v ↔
    ∃ k, result? op m n = some k ∧ (int k).Fits ∧ v = int k := by
  rw [binary_int, Option.bind_eq_some_iff]
  exact exists_congr fun _ => and_congr_right fun _ => checked_eq_some

/-- Operations have values on whole numbers only. -/
theorem ints_of_binary (h : binary op a b = some v) : ∃ m n, a = int m ∧ b = int n := by
  unfold binary at h
  split at h
  case h_5 => cases h
  all_goals exact ⟨_, _, rfl, rfl⟩

end Constant

/-- An expression where it stands. -/
structure Site where
  scope : Scope
  expr : Expr

namespace Scope

open Constant

/-- The value of an expression, without a limit on the levels. -/
inductive Folds : Scope → Expr → Constant → Prop
  | str {s : Scope} {text : String} : Folds s (.lit (.str text)) (.str text)
  | bool {s : Scope} {b : Bool} : Folds s (.lit (.bool b)) (.bool b)
  | char {s : Scope} {c : Char} : Folds s (.lit (.char c)) (.str (String.ofList [c]))
  | int {s : Scope} {negative : Bool} {n : Nat} {k : Int} :
    k = (if negative then -(n : Int) else n) → (Constant.int k).Fits →
    Folds s (.lit (.int negative n)) (.int k)
  | paren {s : Scope} {e : Expr} {v : Constant} : Folds s e v → Folds s (.paren e) v
  | ref {s : Scope} {e : Expr} {v : Constant} : Folds s e v → Folds s (.ref e) v
  | cast {s : Scope} {e : Expr} {v : Constant} {type : TypeExpr} {inner : List Expr} :
    Folds s e v → Folds s (.cast e type inner) v
  | block {s : Scope} {e : Expr} {v : Constant} {attributes : List Expr} :
    Folds s e v → Folds s (.block [.expr attributes e false]) v
  | neg {s : Scope} {e : Expr} {n : Int} :
    Folds s e (.int n) → (Constant.int (-n)).Fits → Folds s (.unary .neg e) (.int (-n))
  | not {s : Scope} {e : Expr} {b : Bool} :
    Folds s e (.bool b) → Folds s (.unary .not e) (.bool !b)
  | binary {s : Scope} {op : BinaryOp} {l r : Expr} {m n k : Int} :
    Folds s l (.int m) → Folds s r (.int n) → result? op m n = some k → (Constant.int k).Fits →
    Folds s (.binary op l r) (.int k)
  | wellKnown {s : Scope} {p : Path} {inner : List Expr} {v : Constant} :
    wellKnown? p.segments = some v → Folds s (.path p inner) v
  | const {s : Scope} {p : Path} {inner : List Expr} {c : ConstDecl} {v : Constant} :
    wellKnown? p.segments = none → s.constant? p.segments = some c →
    Folds (s.ofConst c) c.item.value v → Folds s (.path p inner) v
  | method {s : Scope} {e : Expr} {name : String} {types : List TypeExpr} {inner : List Expr}
    {v : Constant} : keepingMethods.contains name = true → Folds s e v →
    Folds s (.methodCall e name types inner []) v
  | call {s : Scope} {f a : Expr} {name : String} {v : Constant} : calleeName? f = some name →
    keepingFunctions.contains name = true → Folds s a v → Folds s (.call f [a]) v

/-- Folding the first expression asks for the value of the second one. -/
inductive Needs : Site → Site → Prop
  | paren {s : Scope} {e : Expr} : Needs ⟨s, .paren e⟩ ⟨s, e⟩
  | ref {s : Scope} {e : Expr} : Needs ⟨s, .ref e⟩ ⟨s, e⟩
  | cast {s : Scope} {e : Expr} {type : TypeExpr} {inner : List Expr} :
    Needs ⟨s, .cast e type inner⟩ ⟨s, e⟩
  | block {s : Scope} {e : Expr} {attributes : List Expr} :
    Needs ⟨s, .block [.expr attributes e false]⟩ ⟨s, e⟩
  | unary {s : Scope} {op : UnaryOp} {e : Expr} : Needs ⟨s, .unary op e⟩ ⟨s, e⟩
  | left {s : Scope} {op : BinaryOp} {l r : Expr} : Needs ⟨s, .binary op l r⟩ ⟨s, l⟩
  | right {s : Scope} {op : BinaryOp} {l r : Expr} : Needs ⟨s, .binary op l r⟩ ⟨s, r⟩
  | const {s : Scope} {p : Path} {inner : List Expr} {c : ConstDecl} :
    wellKnown? p.segments = none → s.constant? p.segments = some c →
    Needs ⟨s, .path p inner⟩ ⟨s.ofConst c, c.item.value⟩
  | method {s : Scope} {e : Expr} {name : String} {types : List TypeExpr} {inner : List Expr} :
    Needs ⟨s, .methodCall e name types inner []⟩ ⟨s, e⟩
  | call {s : Scope} {f a : Expr} : Needs ⟨s, .call f [a]⟩ ⟨s, a⟩

variable {s : Scope} {e : Expr} {v : Constant} {n m : Nat} {x y : Site}

theorem evalWithin_succ (hv : s.evalWithin n e = some v) : s.evalWithin (n + 1) e = some v := by
  fun_induction evalWithin s n e generalizing v with
  | case1 | case12 | case14 => cases hv
  | case2 => exact hv
  | case3 _ _ _ ih | case4 _ _ _ ih | case5 _ _ _ _ _ ih | case6 _ _ _ _ ih => exact ih hv
  | case7 s n op e ih =>
    obtain ⟨a, ha, hv⟩ := Option.bind_eq_some_iff.mp hv
    exact Option.bind_eq_some_iff.mpr ⟨a, ih ha, hv⟩
  | case8 s n op l r ihl ihr =>
    obtain ⟨a, ha, hv⟩ := Option.bind_eq_some_iff.mp hv
    obtain ⟨b, hb, hv⟩ := Option.bind_eq_some_iff.mp hv
    exact Option.bind_eq_some_iff.mpr ⟨a, ihl ha, Option.bind_eq_some_iff.mpr ⟨b, ihr hb, hv⟩⟩
  | case9 s n p inner w hw =>
    rw [evalWithin, hw, hv]
  | case10 s n p inner hw ih =>
    obtain ⟨c, hc, hv⟩ := Option.bind_eq_some_iff.mp hv
    rw [evalWithin, hw]
    exact Option.bind_eq_some_iff.mpr ⟨c, hc, ih c hv⟩
  | case11 s n e name types inner hname ih =>
    rw [evalWithin, if_pos hname]
    exact ih hv
  | case13 s n f a ih =>
    obtain ⟨name, hf, hv⟩ := Option.bind_eq_some_iff.mp hv
    split at hv
    · next hname => exact Option.bind_eq_some_iff.mpr ⟨name, hf, (if_pos hname).trans (ih hv)⟩
    · cases hv

/-- More levels keep a value. -/
theorem evalWithin_mono (h : n ≤ m) (hv : s.evalWithin n e = some v) :
    s.evalWithin m e = some v := by
  induction h with
  | refl => exact hv
  | step _ ih => exact evalWithin_succ ih

theorem folds_of_evalWithin (hv : s.evalWithin n e = some v) : s.Folds e v := by
  fun_induction evalWithin s n e generalizing v with
  | case1 | case12 | case14 => cases hv
  | case2 s n l =>
    cases l with
    | str | bool | char =>
      cases hv
      constructor
    | int negative n =>
      obtain ⟨hfits, rfl⟩ := checked_eq_some.mp hv
      exact .int rfl hfits
    | float | other => cases hv
  | case3 _ _ _ ih => exact .paren (ih hv)
  | case4 _ _ _ ih => exact .ref (ih hv)
  | case5 _ _ _ _ _ ih => exact .cast (ih hv)
  | case6 _ _ _ _ ih => exact .block (ih hv)
  | case7 s n op e ih =>
    obtain ⟨a, ha, hv⟩ := Option.bind_eq_some_iff.mp hv
    unfold Constant.unary at hv
    split at hv
    · obtain ⟨hfits, rfl⟩ := checked_eq_some.mp hv
      exact .neg (ih ha) hfits
    · cases hv
      exact .not (ih ha)
    · cases hv
  | case8 s n op l r ihl ihr =>
    obtain ⟨a, ha, hv⟩ := Option.bind_eq_some_iff.mp hv
    obtain ⟨b, hb, hv⟩ := Option.bind_eq_some_iff.mp hv
    obtain ⟨x, y, rfl, rfl⟩ := ints_of_binary hv
    obtain ⟨k, hk, hfits, rfl⟩ := binary_int_eq_some.mp hv
    exact .binary (ihl ha) (ihr hb) hk hfits
  | case9 s n p inner w hw =>
    cases hv
    exact .wellKnown hw
  | case10 s n p inner hw ih =>
    obtain ⟨c, hc, hv⟩ := Option.bind_eq_some_iff.mp hv
    exact .const hw hc (ih c hv)
  | case11 s n e name types inner hname ih => exact .method hname (ih hv)
  | case13 s n f a ih =>
    obtain ⟨name, hf, hv⟩ := Option.bind_eq_some_iff.mp hv
    split at hv
    · next hname => exact .call hf hname (ih hv)
    · cases hv

theorem Folds.evalWithin (h : s.Folds e v) : ∃ n, s.evalWithin n e = some v := by
  induction h with
  | str | bool | char => exact ⟨1, rfl⟩
  | int hk hfits => exact ⟨1, checked_eq_some.mpr ⟨hk ▸ hfits, by rw [hk]⟩⟩
  | paren _ ih | ref _ ih | cast _ ih | block _ ih =>
    obtain ⟨n, hn⟩ := ih
    exact ⟨n + 1, hn⟩
  | neg _ hfits ih =>
    obtain ⟨n, hn⟩ := ih
    exact ⟨n + 1, Option.bind_eq_some_iff.mpr ⟨_, hn, checked_eq_some.mpr ⟨hfits, rfl⟩⟩⟩
  | not _ ih =>
    obtain ⟨n, hn⟩ := ih
    exact ⟨n + 1, Option.bind_eq_some_iff.mpr ⟨_, hn, rfl⟩⟩
  | binary _ _ hk hfits ihl ihr =>
    obtain ⟨n, hn⟩ := ihl
    obtain ⟨m, hm⟩ := ihr
    refine ⟨max n m + 1, Option.bind_eq_some_iff.mpr
      ⟨_, evalWithin_mono (Nat.le_max_left n m) hn, ?_⟩⟩
    exact Option.bind_eq_some_iff.mpr ⟨_, evalWithin_mono (Nat.le_max_right n m) hm,
      binary_int_eq_some.mpr ⟨_, hk, hfits, rfl⟩⟩
  | wellKnown hw => exact ⟨1, by rw [Scope.evalWithin, hw]⟩
  | const hw hc _ ih =>
    obtain ⟨n, hn⟩ := ih
    refine ⟨n + 1, ?_⟩
    rw [Scope.evalWithin, hw, hc]
    exact hn
  | method hname _ ih =>
    obtain ⟨n, hn⟩ := ih
    exact ⟨n + 1, (if_pos hname).trans hn⟩
  | call hf hname _ ih =>
    obtain ⟨n, hn⟩ := ih
    exact ⟨n + 1, Option.bind_eq_some_iff.mpr ⟨_, hf, (if_pos hname).trans hn⟩⟩

/-- Folding without a limit has the values that some limit lets through. -/
theorem folds_iff : s.Folds e v ↔ ∃ n, s.evalWithin n e = some v :=
  ⟨Folds.evalWithin, fun ⟨_, hn⟩ => folds_of_evalWithin hn⟩

theorem Folds.unique {w : Constant} (h : s.Folds e v) (h' : s.Folds e w) : v = w := by
  obtain ⟨n, hn⟩ := h.evalWithin
  obtain ⟨m, hm⟩ := h'.evalWithin
  have hv := evalWithin_mono (Nat.le_max_left n m) hn
  have hw := evalWithin_mono (Nat.le_max_right n m) hm
  exact Option.some.inj (hv.symm.trans hw)

/-- What is asked for has a value one level further down. -/
theorem evalWithin_of_needs (h : Needs x y) (hv : x.scope.evalWithin (n + 1) x.expr = some v) :
    ∃ w, y.scope.evalWithin n y.expr = some w := by
  cases h with
  | paren | ref | cast | block => exact ⟨v, hv⟩
  | unary | left =>
    obtain ⟨a, ha, -⟩ := Option.bind_eq_some_iff.mp hv
    exact ⟨a, ha⟩
  | right =>
    obtain ⟨a, -, hv⟩ := Option.bind_eq_some_iff.mp hv
    obtain ⟨b, hb, -⟩ := Option.bind_eq_some_iff.mp hv
    exact ⟨b, hb⟩
  | const hw hc =>
    rw [evalWithin, hw, hc] at hv
    exact ⟨v, hv⟩
  | method =>
    rw [evalWithin] at hv
    split at hv
    · exact ⟨v, hv⟩
    · cases hv
  | call =>
    obtain ⟨name, -, hv⟩ := Option.bind_eq_some_iff.mp hv
    split at hv
    · exact ⟨v, hv⟩
    · cases hv

theorem evalWithin_of_reaches (h : TransGen Needs x y)
    (hv : x.scope.evalWithin n x.expr = some v) :
    ∃ m < n, ∃ w, y.scope.evalWithin m y.expr = some w := by
  have step {x y : Site} {n : Nat} {v : Constant} (h : Needs x y)
      (hv : x.scope.evalWithin n x.expr = some v) :
      ∃ m < n, ∃ w, y.scope.evalWithin m y.expr = some w := by
    cases n with
    | zero => cases hv
    | succ n => exact ⟨n, Nat.lt_succ_self n, evalWithin_of_needs h hv⟩
  induction h with
  | single h => exact step h hv
  | tail _ h ih =>
    obtain ⟨m, hm, w, hw⟩ := ih
    obtain ⟨k, hk, hv⟩ := step h hw
    exact ⟨k, Nat.lt_trans hk hm, hv⟩

theorem evalWithin_of_cycle (h : TransGen Needs x x) : x.scope.evalWithin n x.expr = none := by
  induction n using Nat.strongRecOn with
  | ind n ih =>
    refine Option.eq_none_iff_forall_ne_some.mpr fun v hv => ?_
    obtain ⟨m, hm, w, hw⟩ := evalWithin_of_reaches h hv
    rw [ih m hm] at hw
    cases hw

theorem fits_of_wellKnown {segments : List String} (h : wellKnown? segments = some v) :
    v.Fits := by
  have hstatus : ∀ c ∈ statusCodes, c.2 < 600 := by decide
  unfold wellKnown? at h
  split at h
  · split at h
    · obtain ⟨code, hcode, rfl⟩ := Option.map_eq_some_iff.mp h
      obtain ⟨n, hn, hcode⟩ := Option.bind_eq_some_iff.mp hcode
      obtain ⟨c, hc, rfl⟩ := Option.map_eq_some_iff.mp hn
      obtain rfl : (c.2 : Int) = code := Option.some.inj hcode
      have hlt := hstatus c (List.mem_of_find?_eq_some hc)
      constructor <;> omega
    · split at h
      · dsimp only at h
        split at h <;> cases h
        trivial
      · cases h
  · cases h

theorem Folds.fits (h : s.Folds e v) : v.Fits := by
  induction h with
  | str | bool | char | not => trivial
  | int _ hfits | neg _ hfits | binary _ _ _ hfits => exact hfits
  | paren _ ih | ref _ ih | cast _ ih | block _ ih | const _ _ _ ih | method _ _ ih
  | call _ _ _ ih => exact ih
  | wellKnown hw => exact fits_of_wellKnown hw

/-- What a value is made of has values in range. -/
theorem Folds.of_reaches (h : x.scope.Folds x.expr v) (hxy : ReflTransGen Needs x y) :
    ∃ w, y.scope.Folds y.expr w ∧ w.Fits := by
  rcases reflTransGen_iff_eq_or_transGen.mp hxy with rfl | hxy
  · exact ⟨v, h, h.fits⟩
  · obtain ⟨n, hn⟩ := h.evalWithin
    obtain ⟨m, -, w, hw⟩ := evalWithin_of_reaches hxy hn
    have hy := folds_of_evalWithin hw
    exact ⟨w, hy, hy.fits⟩

/-- The limit on levels only takes values away: with more levels each value stays, and the values
with any number of levels are those that the rules give, which is one at most. All numbers that
occur on the way to a value have 64 bits and are the exact results of their operations. What asks,
over any constants, for a value that asks for itself has no value. -/
theorem eval_folds (s : Scope) (e : Expr) :
    (∀ n m v, n ≤ m → s.evalWithin n e = some v → s.evalWithin m e = some v) ∧
      (∀ v, s.Folds e v ↔ ∃ n, s.evalWithin n e = some v) ∧
      (∀ v w, s.Folds e v → s.Folds e w → v = w) ∧
      (∀ v, s.eval e = some v → s.Folds e v ∧
        ∀ x, ReflTransGen Needs ⟨s, e⟩ x → ∃ w, x.scope.Folds x.expr w ∧ w.Fits) ∧
      ∀ x, ReflTransGen Needs ⟨s, e⟩ x → TransGen Needs x x →
        s.eval e = none ∧ ∀ v, ¬s.Folds e v := by
  have cyclic (x : Site) (hx : ReflTransGen Needs ⟨s, e⟩ x) (hc : TransGen Needs x x)
      (v : Constant) : ¬s.Folds e v := by
    intro h
    obtain ⟨w, hw, -⟩ := h.of_reaches (x := ⟨s, e⟩) hx
    obtain ⟨n, hn⟩ := hw.evalWithin
    rw [evalWithin_of_cycle hc] at hn
    cases hn
  refine ⟨fun n m v h => evalWithin_mono h, fun v => folds_iff, fun v w => Folds.unique,
    fun v h => ?_, fun x hx hc => ⟨?_, cyclic x hx hc⟩⟩
  · have hfolds := folds_of_evalWithin h
    exact ⟨hfolds, fun x hx => hfolds.of_reaches (x := ⟨s, e⟩) hx⟩
  · exact Option.eq_none_iff_forall_ne_some.mpr fun v hv =>
      cyclic x hx hc v (folds_of_evalWithin hv)

section Programs

/-- A constant by its own name. -/
def constNamed (name : String) : Expr := .path { segments := [name] } []

def whole (n : Nat) : Expr := .lit (.int false n)

/-- A constant of a module or of a type. -/
def codeConst (type : Option String) (name : String) (value : Expr) : ConstDecl :=
  ⟨["consts"], type, ⟨[], name, .path ["i64"] [], value⟩⟩

/-- A code that is computed from a constant of the module, and two constants that are each other. -/
def codes : Program where
  consts :=
    [codeConst none "BASE" (whole 404),
     codeConst (some "Codes") "INVALID"
      (.binary .add (.binary .mul (constNamed "BASE") (whole 1000000)) (whole 2)),
     codeConst none "LEFT" (constNamed "RIGHT"), codeConst none "RIGHT" (constNamed "LEFT")]

/-- The code has its value under any limit, and nothing can be added to the constants. -/
theorem eval_folds_codes :
    let s : Scope := ⟨codes, ["consts"], none⟩
    let invalid : Expr := .path { segments := ["Codes", "INVALID"] } []
    let next : Expr := .binary .add (constNamed "LEFT") (whole 1)
    s.Folds invalid (.int 404000002) ∧ s.evalWithin 100 invalid = some (.int 404000002) ∧
      s.eval next = none ∧ ∀ v, ¬s.Folds next v := by
  intro s invalid next
  have hvalue : s.evalWithin 5 invalid = some (.int 404000002) := by decide
  have hleft : Needs ⟨s, constNamed "LEFT"⟩ ⟨s, constNamed "RIGHT"⟩ :=
    .const (c := codeConst none "LEFT" (constNamed "RIGHT")) rfl rfl
  have hright : Needs ⟨s, constNamed "RIGHT"⟩ ⟨s, constNamed "LEFT"⟩ :=
    .const (c := codeConst none "RIGHT" (constNamed "LEFT")) rfl rfl
  obtain ⟨more, folds, -⟩ := eval_folds s invalid
  obtain ⟨-, -, -, -, cyclic⟩ := eval_folds s next
  refine ⟨(folds _).mpr ⟨5, hvalue⟩, more 5 100 _ (by decide) hvalue, ?_⟩
  exact cyclic _ (.single .left) (.tail (.single hleft) hright)

end Programs

end Scope

end ServiceContract
