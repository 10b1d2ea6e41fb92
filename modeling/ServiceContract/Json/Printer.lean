import ServiceContract.Decimal.Shortest
import ServiceContract.Json.Value

/-! # JSON text

The compact text has no blanks. The pretty text puts every item and field on a line of its own,
two columns further in, and writes an empty array or object as `[]` or its braces alone. Control
characters are escaped, other characters stand for themselves.
-/

namespace ServiceContract.Json

/-- Doubles are positional from `1e-5` up to `1e16`, a whole double ends in `.0`, and a
positive exponent has a sign. -/
def doubleStyle : Decimal.Style := ⟨-5, 15, ".0", "+", "null", "null"⟩

def numberText : JsonNumber → String
  | .int i => Text.integer i
  | .double bits => doubleStyle.write bits

def escapeChar (c : Char) : List Char :=
  if c == '"' then ['\\', '"']
  else if c == '\\' then ['\\', '\\']
  else if c.toNat == 8 then ['\\', 'b']
  else if c.toNat == 9 then ['\\', 't']
  else if c.toNat == 10 then ['\\', 'n']
  else if c.toNat == 12 then ['\\', 'f']
  else if c.toNat == 13 then ['\\', 'r']
  else if c.toNat < 32 then
    ['\\', 'u', '0', '0', Text.hexChar (c.toNat / 16), Text.hexChar (c.toNat % 16)]
  else [c]

/-- A text between quotes. -/
def quoted (s : String) : String :=
  String.ofList ('"' :: s.toList.flatMap escapeChar ++ ['"'])

mutual

/-- The text of a value without blanks. -/
def compact : Json → String
  | .null => "null"
  | .bool b => if b then "true" else "false"
  | .num n => numberText n
  | .str s => quoted s
  | .arr xs => "[" ++ Text.join "," (compactItems xs) ++ "]"
  | .obj fs => "\x7b" ++ Text.join "," (compactFields fs) ++ "\x7d"

def compactItems : List Json → List String
  | [] => []
  | x :: xs => compact x :: compactItems xs

def compactFields : List (String × Json) → List String
  | [] => []
  | (k, v) :: fs => (quoted k ++ ":" ++ compact v) :: compactFields fs

end

/-- A line break and the indentation of the given depth. -/
def newline (depth : Nat) : String :=
  String.ofList ('\n' :: List.replicate (2 * depth) ' ')

/-- Items on lines of their own, one level further in than the brackets around them. -/
def spread (openText closeText : String) (depth : Nat) (items : List String) : String :=
  if items.isEmpty then openText ++ closeText
  else openText ++ newline (depth + 1) ++ Text.join ("," ++ newline (depth + 1)) items ++
    newline depth ++ closeText

mutual

/-- The text of a value at the given depth, one item or field on a line. -/
def prettyAt (depth : Nat) : Json → String
  | .null => "null"
  | .bool b => if b then "true" else "false"
  | .num n => numberText n
  | .str s => quoted s
  | .arr xs => spread "[" "]" depth (prettyItems (depth + 1) xs)
  | .obj fs => spread "\x7b" "\x7d" depth (prettyFields (depth + 1) fs)

def prettyItems (depth : Nat) : List Json → List String
  | [] => []
  | x :: xs => prettyAt depth x :: prettyItems depth xs

def prettyFields (depth : Nat) : List (String × Json) → List String
  | [] => []
  | (k, v) :: fs => (quoted k ++ ": " ++ prettyAt depth v) :: prettyFields depth fs

end

/-- The text of a value, one item or field on a line. -/
def pretty (v : Json) : String := prettyAt 0 v

end ServiceContract.Json
