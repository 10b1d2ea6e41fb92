import ServiceContract.Source.Token
import ServiceContract.Text.Unicode

/-! # Literals

The value of a literal token. Whole numbers have arbitrary size here; whoever uses one decides
which range it has to fit. Of a floating point literal only the digits are kept, without gaps and
plus signs.
-/

namespace ServiceContract.Source

open Text Unicode

/-- A literal value. -/
inductive Lit
  | str (value : String)
  | char (value : Char)
  | int (negative : Bool) (magnitude : Nat)
  | float (digits : String)
  | bool (value : Bool)
  | other
  deriving DecidableEq, Repr, Inhabited

namespace Lit

def isWord : List Char → Bool
  | [] => false
  | c :: cs => (c == '_' || isXidStart c) && cs.all isXidContinue

/-- Whether a text may follow the digits of a number. -/
def isSuffix (cs : List Char) : Bool := cs.isEmpty || isWord cs

/-- What an exponent mark in a whole number means: nothing to do with it, or no whole number. -/
inductive Mark
  | suffix
  | notInt

/-- Reads what follows an exponent mark; `digit` tells whether a digit has been seen. -/
def exponentMark : Bool → List Char → Mark
  | digit, [] => if digit then .notInt else .suffix
  | digit, c :: cs =>
    if c == '_' then exponentMark digit cs
    else if c == '-' || c == '+' then .notInt
    else if c.isDigit then exponentMark true cs
    else if digit && isWord (c :: cs) then .notInt
    else .suffix

/-- The digits of a whole number: value, whether there is a digit, and the suffix. -/
def intBody (base : Nat) : Nat → Bool → List Char → Option (Nat × Bool × List Char)
  | value, digit, [] => some (value, digit, [])
  | value, digit, c :: cs =>
    if c == '_' then intBody base value digit cs
    else if c == '.' && base == 10 then none
    else if (c == 'e' || c == 'E') && base == 10 then
      match exponentMark false cs with
      | .suffix => some (value, digit, c :: cs)
      | .notInt => none
    else if c.isDigit || (10 < base && (hexDigit? c).isSome) then
      match hexDigit? c with
      | some d => if d < base then intBody base (base * value + d) true cs else none
      | none => none
    else some (value, digit, c :: cs)

/-- The value and the suffix of a whole number literal. -/
def intParts? (cs : List Char) : Option (Nat × List Char) := do
  let (base, cs) ← match cs with
    | '0' :: 'x' :: cs => some (16, cs)
    | '0' :: 'o' :: cs => some (8, cs)
    | '0' :: 'b' :: cs => some (2, cs)
    | c :: _ => if c.isDigit then some (10, cs) else none
    | [] => none
  let (value, digit, suffix) ← intBody base 0 false cs
  if digit && isSuffix suffix then return (value, suffix) else none

/-- The value of a whole number literal. -/
def int? (cs : List Char) : Option Nat := (intParts? cs).map (·.1)

/-- The position that a literal names: a whole number of 32 bits without a suffix. -/
def position? (cs : List Char) : Option Nat :=
  (intParts? cs).bind fun (n, suffix) =>
    if suffix.isEmpty && n < UInt32.size then some n else none

/-- Progress through the digits of a floating point literal. -/
structure FloatState where
  point : Bool := false
  mark : Bool := false
  sign : Bool := false
  exponent : Bool := false

/-- The digits of a floating point literal without gaps and plus signs, and its suffix. -/
def floatBody : FloatState → List Char → Option (List Char × FloatState × List Char)
  | st, [] => some ([], st, [])
  | st, c :: cs =>
    if c == '_' then floatBody st cs
    else if c.isDigit then
      (floatBody { st with exponent := st.exponent || st.mark } cs).map
        fun (ds, r) => (c :: ds, r)
    else if c == '.' then
      if st.mark || st.point then none
      else (floatBody { st with point := true } cs).map fun (ds, r) => (c :: ds, r)
    else if c == 'e' || c == 'E' then
      let goesOn := (cs.dropWhile (· == '_')).head?.any fun d => d == '-' || d == '+' || d.isDigit
      if !goesOn then some ([], st, c :: cs)
      else if st.mark then
        if st.exponent then some ([], st, c :: cs) else none
      else (floatBody { st with mark := true } cs).map fun (ds, r) => ('e' :: ds, r)
    else if c == '-' || c == '+' then
      if st.sign || st.exponent || !st.mark then none
      else
        (floatBody { st with sign := true } cs).map fun (ds, r) =>
          (if c == '-' then c :: ds else ds, r)
    else some ([], st, c :: cs)

/-- The digits of a floating point literal. -/
def float? (cs : List Char) : Option String := do
  if cs.head?.any Char.isDigit then
    let (ds, st, suffix) ← floatBody {} cs
    if (st.mark && !st.exponent) || !isSuffix suffix then none else return String.ofList ds
  else none

/-- A number literal, negated or not. -/
def number? (negative : Bool) (text : String) : Option Lit :=
  match int? text.toList with
  | some n => some (.int negative n)
  | none => (float? text.toList).map fun ds => .float (if negative then "-" ++ ds else ds)

/-- The digits of a code point escape after its opening brace: value and rest. -/
def codePoint (value : Nat) : List Char → Nat × List Char
  | [] => (value, [])
  | c :: cs =>
    if c == '}' then (value, cs)
    else codePoint (match hexDigit? c with | some d => 16 * value + d | none => value) cs

/-- One escape after its backslash: the character and the rest. -/
def escape : List Char → Option (Char × List Char)
  | 'x' :: a :: b :: cs => some (Char.ofNat (hexValue [a, b]), cs)
  | 'u' :: '{' :: cs => let (v, cs) := codePoint 0 cs; some (Char.ofNat v, cs)
  | 'n' :: cs => some ('\n', cs)
  | 'r' :: cs => some ('\r', cs)
  | 't' :: cs => some ('\t', cs)
  | '0' :: cs => some (Char.ofNat 0, cs)
  | '\\' :: cs => some ('\\', cs)
  | '\'' :: cs => some ('\'', cs)
  | '"' :: cs => some ('"', cs)
  | _ => none

/-- The text of a quoted literal up to its closing quote. -/
def cookedText : Nat → List Char → List Char
  | 0, _ => []
  | n + 1, cs =>
    match cs with
    | [] => []
    | '"' :: _ => []
    | '\r' :: '\n' :: cs => '\n' :: cookedText n cs
    | '\\' :: c :: cs =>
      if c == '\n' || c == '\r' then cookedText n (cs.dropWhile isWhitespace)
      else
        match escape (c :: cs) with
        | some (d, rest) => d :: cookedText n rest
        | none => []
    | c :: cs => c :: cookedText n cs

/-- The text of a raw literal after its letter: all between the first and the last quote. -/
def rawText (cs : List Char) : List Char :=
  let body := (cs.dropWhile (· == '#')).drop 1
  ((body.reverse.dropWhile (· != '"')).drop 1).reverse

/-- The value of a literal token. -/
def ofText (text : String) : Lit :=
  match text.toList with
  | '"' :: cs => .str (String.ofList (cookedText (cs.length + 1) cs))
  | 'r' :: cs => .str (String.ofList (rawText cs))
  | '\'' :: '\\' :: cs => match escape cs with
    | some (c, _) => .char c
    | none => .other
  | '\'' :: c :: _ => .char c
  | c :: _ => if c.isDigit then (number? false text).getD .other else .other
  | [] => .other

/-- The text of a value written in an attribute. -/
def asText : Lit → String
  | .str s => s
  | .char c => String.ofList [c]
  | .int negative n => (if negative then "-" else "") ++ decimal n
  | .float ds => ds
  | .bool b => if b then "true" else "false"
  | .other => ""

/-- The value of a whole number literal. -/
def asInt? : Lit → Option Int
  | .int negative n => some (if negative then -(n : Int) else n)
  | _ => none

end Lit

end ServiceContract.Source
