import ServiceContract.Text.Basic
import ServiceContract.Json.Value

/-! # Reading JSON

A reader takes the characters that are left and returns a value and the rest. A whole number that
fits 64 bits is kept exactly. Any other number is the double that comes of scaling the first
digits that fit 64 bits by a power of ten, and one too large for a double is refused. So is a text
in which arrays and objects are nested too deeply.
-/

namespace ServiceContract.Json

open Text

def skipBlanks (cs : List Char) : List Char :=
  cs.dropWhile fun c => c == ' ' || c == '\n' || c == '\t' || c == '\r'

/-- The number of four hexadecimal digits. -/
def fourHex : List Char → Option (Nat × List Char)
  | a :: b :: c :: d :: rest => do
    let a ← hexDigit? a
    let b ← hexDigit? b
    let c ← hexDigit? c
    let d ← hexDigit? d
    return (((a * 16 + b) * 16 + c) * 16 + d, rest)
  | _ => none

/-- The character of a `\u` escape whose digits come next; surrogates stand in pairs. -/
def unicodeEscape (cs : List Char) : Option (Char × List Char) := do
  let (n, rest) ← fourHex cs
  if 0xDC00 ≤ n && n ≤ 0xDFFF then none
  else if 0xD800 ≤ n && n ≤ 0xDBFF then
    match rest with
    | '\\' :: 'u' :: rest => do
      let (m, rest) ← fourHex rest
      if 0xDC00 ≤ m && m ≤ 0xDFFF then
        return (Char.ofNat (0x10000 + (n - 0xD800) * 0x400 + (m - 0xDC00)), rest)
      else none
    | _ => none
  else return (Char.ofNat n, rest)

/-- The characters up to the closing quote; `acc` holds those read so far, last first. -/
def stringBody : Nat → List Char → List Char → Option (String × List Char)
  | 0, _, _ => none
  | _ + 1, _, [] => none
  | n + 1, acc, c :: cs =>
    if c == '"' then some (String.ofList acc.reverse, cs)
    else if c == '\\' then
      match cs with
      | '"' :: cs => stringBody n ('"' :: acc) cs
      | '\\' :: cs => stringBody n ('\\' :: acc) cs
      | '/' :: cs => stringBody n ('/' :: acc) cs
      | 'b' :: cs => stringBody n (Char.ofNat 8 :: acc) cs
      | 'f' :: cs => stringBody n (Char.ofNat 12 :: acc) cs
      | 'n' :: cs => stringBody n ('\n' :: acc) cs
      | 'r' :: cs => stringBody n ('\r' :: acc) cs
      | 't' :: cs => stringBody n ('\t' :: acc) cs
      | 'u' :: cs =>
        match unicodeEscape cs with
        | some (d, rest) => stringBody n (d :: acc) rest
        | none => none
      | _ => none
    else if c.toNat < 32 then none
    else stringBody n (c :: acc) cs

/-- A double scaled by a power of ten, one table step of at most 308 at a time. -/
def scale (f : Float) (e : Int) : Nat → Option Float
  | 0 => some f
  | n + 1 =>
    if e.natAbs ≤ 308 then
      if 0 ≤ e then
        let r := f * Float.ofScientific 1 false e.toNat
        if r.isInf then none else some r
      else some (f / Float.ofScientific 1 false e.natAbs)
    else if f == 0.0 then some f
    else if 0 ≤ e then none
    else scale (f / 1e308) (e + 308) n

/-- The double of a sign, leading digits and an exponent. -/
def double (positive : Bool) (significand : Nat) (e : Int) : Option JsonNumber :=
  (scale significand.toUInt64.toFloat e (e.natAbs / 308 + 2)).map fun f =>
    .double (if positive then f else -f).toBits

def maxWord : Nat := UInt64.size - 1

/-- The digits at the front as a number below `2 ^ 64`, how many there are, and whether the
number was cut because one more digit would not fit. -/
def digitRun : Nat → Nat → List Char → Nat × Nat × List Char
  | acc, count, [] => (acc, count, [])
  | acc, count, c :: cs =>
    if c.isDigit && 10 * acc + (c.toNat - 48) ≤ maxWord then
      digitRun (10 * acc + (c.toNat - 48)) (count + 1) cs
    else (acc, count, c :: cs)

/-- The number that the digits of an exponent make of what stands before it. -/
def exponentDigits (positive : Bool) (significand : Nat) (e : Int) (up : Bool) (cs : List Char) :
    Option (JsonNumber × List Char) :=
  let rest := cs.dropWhile Char.isDigit
  match decimalValue? (cs.takeWhile Char.isDigit) with
  | none => none
  | some x =>
    if Nat.pow 2 31 ≤ x then
      if significand != 0 && up then none
      else some (.double (if positive then (0.0 : Float) else -0.0).toBits, rest)
    else (double positive significand (if up then e + x else e - x)).map (·, rest)

/-- The number after an exponent mark, given what stands before it. -/
def exponentPart (positive : Bool) (significand : Nat) (e : Int) (cs : List Char) :
    Option (JsonNumber × List Char) :=
  match cs with
  | '+' :: cs => exponentDigits positive significand e true cs
  | '-' :: cs => exponentDigits positive significand e false cs
  | cs => exponentDigits positive significand e true cs

/-- What follows the digits of a double that stand before an exponent mark. -/
def afterDigits (positive : Bool) (significand : Nat) (e : Int) (cs : List Char) :
    Option (JsonNumber × List Char) :=
  match cs with
  | 'e' :: cs => exponentPart positive significand e cs
  | 'E' :: cs => exponentPart positive significand e cs
  | cs => (double positive significand e).map (·, cs)

/-- The digits after a decimal point and what follows them. -/
def fraction (positive : Bool) (significand : Nat) (e : Int) (cs : List Char) :
    Option (JsonNumber × List Char) :=
  let (acc, count, rest) := digitRun significand 0 cs
  match rest with
  | c :: _ =>
    if c.isDigit then afterDigits positive acc (e - count) (rest.dropWhile Char.isDigit)
    else if count == 0 then none else afterDigits positive acc (e - count) rest
  | [] => if count == 0 then none else afterDigits positive acc (e - count) rest

/-- A number that is written without a point and an exponent; `cut` of its digits do not fit. -/
def whole (positive : Bool) (significand cut : Nat) : Option JsonNumber :=
  if cut != 0 then double positive significand cut
  else if positive then some (.int significand)
  else if significand == 0 || Nat.pow 2 63 < significand then
    some (.double (-(significand.toUInt64.toFloat)).toBits)
  else some (.int (-(significand : Int)))

/-- What follows the digits in front of a number. -/
def afterWhole (positive : Bool) (significand cut : Nat) (cs : List Char) :
    Option (JsonNumber × List Char) :=
  match cs with
  | '.' :: cs => fraction positive significand cut cs
  | 'e' :: cs => exponentPart positive significand cut cs
  | 'E' :: cs => exponentPart positive significand cut cs
  | cs => (whole positive significand cut).map (·, cs)

/-- A number without its sign. -/
def magnitude (positive : Bool) (cs : List Char) : Option (JsonNumber × List Char) :=
  let (acc, count, rest) := digitRun 0 0 cs
  if count == 0 then none
  else if 1 < count && cs.head? == some '0' then none
  else
    let cut := (rest.takeWhile Char.isDigit).length
    afterWhole positive acc cut (rest.dropWhile Char.isDigit)

/-- How deeply arrays and objects may be nested in a text. -/
def maxDepth : Nat := 127

mutual

/-- Reads one value in which arrays and objects are nested no deeper than `depth`. -/
def value (depth : Nat) : Nat → List Char → Option (Json × List Char)
  | 0, _ => none
  | n + 1, cs =>
    match skipBlanks cs with
    | 'n' :: 'u' :: 'l' :: 'l' :: rest => some (.null, rest)
    | 't' :: 'r' :: 'u' :: 'e' :: rest => some (.bool true, rest)
    | 'f' :: 'a' :: 'l' :: 's' :: 'e' :: rest => some (.bool false, rest)
    | '"' :: rest => (stringBody (rest.length + 1) [] rest).map fun (s, rest) => (.str s, rest)
    | '[' :: rest =>
      if depth = 0 then none
      else
        match skipBlanks rest with
        | ']' :: rest => some (.arr [], rest)
        | rest => (items (depth - 1) n [] rest).map fun (xs, rest) => (.arr xs, rest)
    | '{' :: rest =>
      if depth = 0 then none
      else
        match skipBlanks rest with
        | '}' :: rest => some (.obj [], rest)
        | rest => (fields (depth - 1) n [] rest).map fun (fs, rest) => (.obj fs, rest)
    | '-' :: rest => (magnitude false rest).map fun (x, rest) => (.num x, rest)
    | rest => (magnitude true rest).map fun (x, rest) => (.num x, rest)

/-- Reads the items of an array; `acc` holds those read so far, last first. -/
def items (depth : Nat) : Nat → List Json → List Char → Option (List Json × List Char)
  | 0, _, _ => none
  | n + 1, acc, cs =>
    match value depth n cs with
    | none => none
    | some (x, rest) =>
      match skipBlanks rest with
      | ',' :: rest => items depth n (x :: acc) rest
      | ']' :: rest => some ((x :: acc).reverse, rest)
      | _ => none

/-- Reads the fields of an object. -/
def fields (depth : Nat) : Nat → List (String × Json) → List Char →
    Option (List (String × Json) × List Char)
  | 0, _, _ => none
  | n + 1, acc, cs =>
    match skipBlanks cs with
    | '"' :: cs =>
      match stringBody (cs.length + 1) [] cs with
      | none => none
      | some (k, rest) =>
        match skipBlanks rest with
        | ':' :: rest =>
          match value depth n rest with
          | none => none
          | some (x, rest) =>
            match skipBlanks rest with
            | ',' :: rest => fields depth n (setKey k x acc) rest
            | '}' :: rest => some (setKey k x acc, rest)
            | _ => none
        | _ => none
    | _ => none

end

/-- Reads a text that holds one value and nothing else. -/
def parse? (s : String) : Option Json :=
  match value maxDepth (2 * s.length + 2) s.toList with
  | some (v, rest) => if (skipBlanks rest).isEmpty then some v else none
  | none => none

end ServiceContract.Json
