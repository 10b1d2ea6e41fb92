import ServiceContract.Text.Basic

/-! # Plain text that is not text

A reader of YAML takes some plain texts for null, a truth value or a number. A string that spells
one of them has to be quoted. A zero that more digits follow is a string to some readers and a
number to others, so it counts as ambiguous as well.
-/

namespace ServiceContract.Yaml

/-- A nonempty text of digits in the given base, and its value. -/
def radixValue? (base : Nat) (cs : List Char) : Option Nat :=
  if cs.isEmpty then none
  else cs.foldlM (fun n c => do
    let d ← Text.hexDigit? c
    if d < base then some (base * n + d) else none) 0

/-- The base that follows a zero, and the digits after it. -/
def radixMark? : List Char → Option (Nat × List Char)
  | '0' :: 'x' :: cs => some (16, cs)
  | '0' :: 'o' :: cs => some (8, cs)
  | '0' :: 'b' :: cs => some (2, cs)
  | _ => none

/-- A whole number with a marked base that fits 128 bits: signed when it is negative. -/
def isRadixInteger (cs : List Char) : Bool :=
  let (limit, body) := match cs with
    | '-' :: r => (Nat.pow 2 127, r)
    | '+' :: r => (Nat.pow 2 128 - 1, r)
    | r => (Nat.pow 2 128 - 1, r)
  match radixMark? body with
  | some (base, ds) => (radixValue? base ds).any (· ≤ limit)
  | none => false

/-- The exponent of a decimal: nothing, or a mark, a sign and digits. -/
def exponent? : List Char → Option Int
  | [] => some 0
  | c :: r =>
    if c == 'e' || c == 'E' then
      match r with
      | '-' :: ds => (Text.decimalValue? ds).map fun n => -(n : Int)
      | '+' :: ds => (Text.decimalValue? ds).map Int.ofNat
      | ds => (Text.decimalValue? ds).map Int.ofNat
    else none

/-- An unsigned decimal as digits and a power of ten; there is a digit before or after the point. -/
def decimal? (cs : List Char) : Option (Nat × Int) := do
  let (whole, r) := cs.span Char.isDigit
  let (fraction, r) := match r with
    | '.' :: r => r.span Char.isDigit
    | r => ([], r)
  let n ← Text.decimalValue? (whole ++ fraction)
  let e ← exponent? r
  return (n, e - fraction.length)

/-- Whether `n * 10 ^ e` rounds to a finite double: it lies below the middle between the largest
double and the next power of two. -/
def roundsFinite (n : Nat) (e : Int) : Bool :=
  let magnitude : Int := (Nat.toDigits 10 n).length + e
  if n == 0 || magnitude ≤ 308 then true
  else if 309 < magnitude then false
  else n * Nat.pow 10 e.toNat < (Nat.pow 2 1024 - Nat.pow 2 970) * Nat.pow 10 (-e).toNat

def infinities : List String := [".inf", ".Inf", ".INF"]

def notANumbers : List String := [".nan", ".NaN", ".NAN"]

/-- A decimal that rounds to a finite double, an infinity or not-a-number. -/
def isReal (cs : List Char) : Bool :=
  let (signed, body) := match cs with
    | '-' :: r => (true, r)
    | '+' :: r => (true, r)
    | r => (false, r)
  infinities.contains (String.ofList body) ||
    (!signed && notANumbers.contains (String.ofList body)) ||
    (decimal? body).any fun (n, e) => roundsFinite n e

/-- A zero that more digits follow, with or without a sign. -/
def isPaddedDigits (cs : List Char) : Bool :=
  let body := match cs with
    | '-' :: r => r
    | '+' :: r => r
    | r => r
  match body with
  | '0' :: d :: ds => (d :: ds).all Char.isDigit
  | _ => false

/-- The words for null and the truth values, in lower case. -/
def reservedWords : List String := ["null", "~", "true", "false"]

/-- Whether a plain text could be read as something other than text. -/
def isAmbiguous (cs : List Char) : Bool :=
  cs.isEmpty || reservedWords.contains (String.ofList (cs.map Char.toLower)) ||
    isRadixInteger cs || isReal cs || isPaddedDigits cs

end ServiceContract.Yaml
