import ServiceContract.Route.OperatorRef
import Mathlib.Tactic.Common

/-! # Programs with other functions

Functions are looked up among those of their own name, and the values of constants depend on no
function. So what the names in a body mean stays the same in a program whose functions are declared
in another order, if those of one name stay in theirs.
-/

namespace ServiceContract

open Source

/-- The same declarations, with other functions. -/
def Program.withFns (p : Program) (fns : List FnDecl) : Program := { p with fns }

def Scope.withFns (s : Scope) (fns : List FnDecl) : Scope :=
  { s with program := s.program.withFns fns }

/-- Functions of one name stand in the same order in both lists. -/
def SameByName (fns gns : List FnDecl) : Prop :=
  ∀ name, fns.filter (fun f => f.name == name) = gns.filter fun f => f.name == name

section Lookup

variable {p : Program} {fns gns : List FnDecl} {segments module : List String}
  {owner : Option String}

theorem SameByName.filter_eq (h : SameByName fns gns) {q : FnDecl → Bool} (name : String)
    (hq : ∀ f, q f = true → f.name = name) : fns.filter q = gns.filter q := by
  have hsplit : ∀ l : List FnDecl, l.filter q = (l.filter fun f => f.name == name).filter q := by
    intro l
    rw [List.filter_filter]
    refine List.filter_congr fun f _ => ?_
    cases hf : q f with
    | false => rfl
    | true => simp [hq f hf]
  rw [hsplit fns, hsplit gns, h name]

namespace Program

theorem ownedMethod_withFns {owner name : String} (h : SameByName fns p.fns) :
    (p.withFns fns).ownedMethod owner name = p.ownedMethod owner name := by
  have hfind : ∀ q : Program, q.ownedMethod owner name =
      (q.fns.filter fun f => f.owner == some owner && f.name == name).head? := fun q => by
    simp only [List.head?_filter, ownedMethod, methodsOf, List.find?_filter, Bool.decide_and,
      Bool.decide_eq_true]
  rw [hfind, hfind]
  refine congrArg List.head? (h.filter_eq name fun f hf => ?_)
  simp only [Bool.and_eq_true, beq_iff_eq] at hf
  exact hf.2

theorem freeFn_withFns (h : SameByName fns p.fns) :
    (p.withFns fns).freeFn segments module = p.freeFn segments module := by
  unfold freeFn
  split
  · rfl
  · next name _ =>
    refine congrArg _ (h.filter_eq name fun f hf => ?_)
    simp only [Bool.and_eq_true, beq_iff_eq] at hf
    exact hf.1.2

theorem methodByPath_withFns {path : TypePath} {name : String} (h : SameByName fns p.fns) :
    (p.withFns fns).methodByPath path module name = p.methodByPath path module name := by
  have htype : (p.withFns fns).findType path module = p.findType path module := rfl
  unfold methodByPath
  rw [htype]
  split
  · exact ownedMethod_withFns h
  · refine congrArg _ (h.filter_eq name fun f hf => ?_)
    simp only [Bool.and_eq_true, beq_iff_eq] at hf
    exact hf.1.2

theorem resolveCall_withFns (h : SameByName fns p.fns) :
    (p.withFns fns).resolveCall segments module owner = p.resolveCall segments module owner := by
  simp only [resolveCall, ownedMethod_withFns h, freeFn_withFns h, methodByPath_withFns h]

end Program

end Lookup

section Operators

variable {fns : List FnDecl} (s : Scope)

theorem Scope.evalWithin_withFns (n : Nat) (e : Expr) :
    (s.withFns fns).evalWithin n e = s.evalWithin n e := by
  induction n generalizing s e with
  | zero => rfl
  | succ n ih =>
    have hconst : ∀ c, ((s.withFns fns).ofConst c).evalWithin n c.item.value =
        (s.ofConst c).evalWithin n c.item.value := fun c => ih (s.ofConst c) _
    have hfind : ∀ segments, (s.withFns fns).constant? segments = s.constant? segments :=
      fun _ => rfl
    simp only [evalWithin, ih, hconst, hfind]

namespace OperatorRef

theorem ofValue?_withFns (e : Expr) : ofValue? (s.withFns fns) e = ofValue? s e := by
  have hstr : ∀ e, (s.withFns fns).evalStr e = s.evalStr e := fun e => by
    rw [Scope.evalStr, Scope.eval, s.evalWithin_withFns]
    rfl
  simp only [ofValue?, hstr]
  rfl

mutual

theorem ofExpr_withFns : ∀ e : Expr, ofExpr (s.withFns fns) e = ofExpr s e
  | .ref e | .paren e => by simpa [ofExpr] using ofExpr_withFns e
  | .array es => by simpa [ofExpr] using ofExprs_withFns es
  | .macroCall m => by simpa [ofExpr] using ofMacro_withFns m
  | .lit _ | .path _ _ | .rawAddress _ | .unary _ _ | .binary _ _ _ | .assign _ _ | .call _ _
  | .methodCall _ _ _ _ _ | .cast _ _ _ | .field _ _ | .index _ _ | .record _ _ _ _ | .tuple _
  | .repeated _ _ | .range _ _ | .block _ | .constBlock _ | .uncheckedBlock _ | .asyncBlock _
  | .tryBlock _ | .loop _ | .whileLoop _ _ | .forLoop _ _ _ _ | .ifThen _ _ _ | .matchOn _ _
  | .letCond _ _ _ | .attempt _ | .await _ | .closure _ _ _ | .returns _ | .breaks _ | .yields _
  | .other => by simp only [ofExpr, ofValue?_withFns]

theorem ofExprs_withFns : ∀ es : List Expr, ofExprs (s.withFns fns) es = ofExprs s es
  | [] => rfl
  | e :: es => by rw [ofExprs, ofExprs, ofExpr_withFns e, ofExprs_withFns es]

theorem ofMacro_withFns : ∀ m : MacroCall, ofMacro (s.withFns fns) m = ofMacro s m
  | .mk path _ (some args) _ => by rw [ofMacro, ofMacro, ofExprs_withFns args]
  | .mk _ _ none _ => rfl

end

end OperatorRef

end Operators

end ServiceContract
