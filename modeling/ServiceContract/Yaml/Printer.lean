import ServiceContract.Json.Value
import ServiceContract.Decimal.Shortest
import ServiceContract.Yaml.Scalar

/-! # YAML text

A value is written in block style, two columns to a level; a sequence below a key starts at the
column of the key. Empty sequences and mappings are written in flow style. A key that is long or
spans lines is marked by `?`, and its value by a `:` on the next line.
-/

namespace ServiceContract.Yaml

/-- Doubles are positional from `1e-5` up to `1e16`, and a whole double ends in `.0`. -/
def doubleStyle : Decimal.Style := ⟨-5, 15, ".0", "", ".inf", ".nan"⟩

def numberText : JsonNumber → String
  | .int i => Text.integer i
  | .double bits => doubleStyle.write bits

/-- Ends the line, unless the text did. -/
def endLine (s : String) : String :=
  if s.toList.getLast?.any isBreak then s else s.push '\n'

/-- Blocks below each other, each from the column `n` on. -/
def stack (n : Nat) (blocks : List String) : String :=
  String.join (blocks.map (String.ofList (spaces n) ++ ·))

/-- Blocks below each other, where the first is at its column already. -/
def stackFrom (n : Nat) : List String → String
  | [] => ""
  | b :: bs => b ++ stack n bs

/-- Whether a key stands on one line before its colon. -/
def isSimpleKey (key : String) : Bool :=
  !key.toList.any isBreak && key.utf8ByteSize ≤ 128

/-- The line of a value that is no block: a scalar, or an empty sequence or mapping. -/
def lineText (n : Nat) : Json → String
  | .null => "null\n"
  | .bool b => if b then "true\n" else "false\n"
  | .num x => numberText x ++ "\n"
  | .str s => endLine (scalarText (n + 2) s)
  | .arr _ => "[]\n"
  | .obj _ => "\x7b\x7d\n"

mutual

/-- What follows the colon of a simple key at the column `n`. -/
def afterKey (n : Nat) : Json → String
  | .arr (x :: xs) => "\n" ++ stack n (items n (x :: xs))
  | .obj (f :: fs) => "\n" ++ stack (n + 2) (entries (n + 2) (f :: fs))
  | v => " " ++ lineText n v

/-- What follows a mark at the column `n`: a block starts on the line of the mark. -/
def afterMark (n : Nat) : Json → String
  | .arr (x :: xs) => " " ++ stackFrom (n + 2) (items (n + 2) (x :: xs))
  | .obj (f :: fs) => " " ++ stackFrom (n + 2) (entries (n + 2) (f :: fs))
  | v => " " ++ lineText n v

/-- The items of a sequence at the column `n`. -/
def items (n : Nat) : List Json → List String
  | [] => []
  | x :: xs => ("-" ++ afterMark n x) :: items n xs

/-- The entries of a mapping at the column `n`. -/
def entries (n : Nat) : List (String × Json) → List String
  | [] => []
  | (key, v) :: fs =>
    (if isSimpleKey key then scalarText (n + 2) key ++ ":" ++ afterKey n v
      else "? " ++ endLine (scalarText (n + 2) key) ++ String.ofList (spaces n) ++ ":" ++
        afterMark n v) :: entries n fs

end

/-- The text of a value as a document of its own. -/
def document : Json → String
  | .arr (x :: xs) => stack 0 (items 0 (x :: xs))
  | .obj (f :: fs) => stack 0 (entries 0 (f :: fs))
  | v => lineText 0 v

end ServiceContract.Yaml
