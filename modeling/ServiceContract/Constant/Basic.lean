import ServiceContract.Source.Walk

/-! # Constants

The values that constant expressions fold to, and arithmetic on them.
-/

namespace ServiceContract

open Source

/-- A folded constant. -/
inductive Constant
  | str (value : String)
  | int (value : Int)
  | bool (value : Bool)
  deriving DecidableEq, Repr

namespace Constant

def asStr? : Constant → Option String
  | str s => some s
  | _ => none

def asInt? : Constant → Option Int
  | int n => some n
  | _ => none

/-- Whole numbers are those of 64 bits with a sign. -/
def inRange (n : Int) : Bool := Int64.minValue.toInt ≤ n && n ≤ Int64.maxValue.toInt

/-- A whole number that is in range. -/
def checked (n : Int) : Option Constant := if inRange n then some (int n) else none

/-- The value of a literal. -/
def ofLit : Lit → Option Constant
  | .str s => some (str s)
  | .int negative n => checked (if negative then -(n : Int) else n)
  | .bool b => some (bool b)
  | .char c => some (str (String.ofList [c]))
  | .float _ | .other => none

def unary : UnaryOp → Constant → Option Constant
  | .neg, int n => checked (-n)
  | .not, bool b => some (bool (!b))
  | _, _ => none

/-- Arithmetic on whole numbers; a quotient is cut off toward zero. -/
def binary : BinaryOp → Constant → Constant → Option Constant
  | .add, int a, int b => checked (a + b)
  | .sub, int a, int b => checked (a - b)
  | .mul, int a, int b => checked (a * b)
  | .div, int a, int b => if b = 0 then none else checked (Int.tdiv a b)
  | _, _, _ => none

end Constant

end ServiceContract
