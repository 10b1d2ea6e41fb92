import ServiceContract.Text.Basic
import ServiceContract.Text.UnicodeData

/-! # Character properties and case

Membership in the character properties and the full case mappings, in which one character may
have several images. ASCII is answered without a table.
-/

namespace ServiceContract.Unicode

open Text

/-- The words of a table. -/
def words (data : String) : List (List Char) :=
  (pieces (fun c => c == ' ' || c == '\n') data.toList).filter fun w => !w.isEmpty

/-- Reads ranges written `lo-hi` or `lo` in hexadecimal. -/
def ranges (data : String) : Array (Nat × Nat) :=
  (words data).toArray.map fun w =>
    match pieces (· == '-') w with
    | [lo, hi] => (hexValue lo, hexValue hi)
    | _ => (hexValue w, hexValue w)

def inRanges (rs : Array (Nat × Nat)) (n : Nat) : Bool :=
  rs.any fun (lo, hi) => lo ≤ n && n ≤ hi

/-- A run of case mappings: every `step`-th character from `lo` to `hi` moves by the same
distance. -/
structure CaseRun where
  lo : Nat
  hi : Nat
  step : Nat
  up : Nat
  down : Nat

def readRun (w : List Char) : CaseRun :=
  let lo := w.takeWhile (· != '-')
  let rest := (w.dropWhile (· != '-')).drop 1
  let hi := rest.takeWhile (fun c => (hexDigit? c).isSome)
  let rest := rest.dropWhile (fun c => (hexDigit? c).isSome)
  let (step, rest) := match rest with
    | '/' :: _ :: rest => (2, rest)
    | rest => (1, rest)
  match rest with
  | '-' :: d => ⟨hexValue lo, hexValue hi, step, 0, hexValue d⟩
  | '+' :: d => ⟨hexValue lo, hexValue hi, step, hexValue d, 0⟩
  | _ => ⟨1, 0, step, 0, 0⟩

def caseRuns (data : String) : Array CaseRun :=
  (words data).toArray.map readRun

def specials (data : String) : Array (Nat × List Char) :=
  (words data).toArray.map fun w =>
    (hexValue (w.takeWhile (· != '=')),
      (pieces (· == '+') ((w.dropWhile (· != '=')).drop 1)).map fun x => Char.ofNat (hexValue x))

def alphanumericRanges := ranges Data.alphanumeric
def lowercaseRanges := ranges Data.lowercase
def uppercaseRanges := ranges Data.uppercase
def xidStartRanges := ranges Data.xidStart
def xidContinueRanges := ranges Data.xidContinue
def casedRanges := ranges Data.cased
def caseIgnorableRanges := ranges Data.caseIgnorable
def whitespaceRanges := ranges Data.whitespace
def upperRuns := caseRuns Data.upperRuns
def lowerRuns := caseRuns Data.lowerRuns
def upperSpecials := specials Data.upperSpecials
def lowerSpecials := specials Data.lowerSpecials

def isAscii (c : Char) : Bool := c.toNat < 128

def isWhitespace (c : Char) : Bool :=
  if isAscii c then c == ' ' || (9 ≤ c.toNat && c.toNat ≤ 13)
  else inRanges whitespaceRanges c.toNat

def isAlphanumeric (c : Char) : Bool :=
  if isAscii c then c.isAlphanum else inRanges alphanumericRanges c.toNat

def isLowercase (c : Char) : Bool :=
  if isAscii c then c.isLower else inRanges lowercaseRanges c.toNat

def isUppercase (c : Char) : Bool :=
  if isAscii c then c.isUpper else inRanges uppercaseRanges c.toNat

/-- Whether an identifier may start with `c`; the underscore is no such character. -/
def isXidStart (c : Char) : Bool :=
  if isAscii c then c.isAlpha else inRanges xidStartRanges c.toNat

def isXidContinue (c : Char) : Bool :=
  if isAscii c then c.isAlphanum || c == '_' else inRanges xidContinueRanges c.toNat

def isCased (c : Char) : Bool := inRanges casedRanges c.toNat

def isCaseIgnorable (c : Char) : Bool := inRanges caseIgnorableRanges c.toNat

def image (runs : Array CaseRun) (special : Array (Nat × List Char)) (c : Char) : List Char :=
  match special.find? (·.1 == c.toNat) with
  | some (_, cs) => cs
  | none =>
    match runs.find? fun r =>
        r.lo ≤ c.toNat && c.toNat ≤ r.hi && (c.toNat - r.lo) % r.step == 0 with
    | some r => [Char.ofNat (c.toNat + r.up - r.down)]
    | none => [c]

/-- The uppercase images of a character. -/
def upper (c : Char) : List Char :=
  if isAscii c then [c.toUpper] else image upperRuns upperSpecials c

/-- The lowercase images of a character. -/
def lower (c : Char) : List Char :=
  if isAscii c then [c.toLower] else image lowerRuns lowerSpecials c

/-- A text in uppercase. -/
def toUpper (s : String) : String :=
  String.ofList (s.toList.flatMap upper)

/-- Whether a sigma between `before` (nearest first) and `after` ends a word: a cased character
precedes it and none follows, ignorable characters passed over. -/
def endsWord (before after : List Char) : Bool :=
  (before.dropWhile isCaseIgnorable).head?.any isCased &&
    !(after.dropWhile isCaseIgnorable).head?.any isCased

def lowerFrom : List Char → List Char → List Char
  | _, [] => []
  | before, c :: cs =>
    (if c == 'Σ' && endsWord before cs then ['ς'] else lower c) ++ lowerFrom (c :: before) cs

/-- A text in lowercase; a sigma that ends a word has its final form. -/
def toLower (s : String) : String :=
  String.ofList (lowerFrom [] s.toList)

/-- A text without white space at its ends. -/
def trim (s : String) : String :=
  String.ofList (dropBothWhile isWhitespace s.toList)

/-- A text without white space at its end. -/
def trimEnd (s : String) : String :=
  String.ofList (dropEndWhile isWhitespace s.toList)

end ServiceContract.Unicode
