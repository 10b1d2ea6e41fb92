import ServiceContract.Yaml.Resolution

/-! # Scalars

A string is written plain where that reads back as the same string, else between single quotes,
else between double quotes. A string with a line feed is written as a literal block where a block
can hold it, else between double quotes. Only double quotes have escapes.
-/

namespace ServiceContract.Yaml

/-- How a string is written. -/
inductive ScalarStyle
  | plain
  | single
  | double
  | literal
  deriving DecidableEq, Repr

/-- The line feed and the characters that no reader refuses in a text. -/
def isPrintable (c : Char) : Bool :=
  let n := c.toNat
  n == 0x0A || (0x20 ≤ n && n ≤ 0x7E) || (0xA0 ≤ n && n ≤ 0xFFFD && n != 0xFEFF) || 0x10000 ≤ n

/-- The characters that end a line. -/
def isBreak (c : Char) : Bool :=
  c == '\n' || c == '\r' || c == '\u0085' || c == '\u2028' || c == '\u2029'

def isBlank (c : Char) : Bool := c == ' ' || c == '\t' || isBreak c

/-- Whether a blank or the end comes next. -/
def blankNext : List Char → Bool
  | [] => true
  | c :: _ => isBlank c

/-- The characters that start something other than a plain text. -/
def openers : List Char :=
  ['#', ',', '[', ']', '\x7b', '\x7d', '&', '*', '!', '|', '>', '\'', '"', '%', '@', '\x60']

/-- A mark of structure at the start of a text. -/
def startsWithMark : List Char → Bool
  | [] => false
  | '-' :: '-' :: '-' :: _ => true
  | '.' :: '.' :: '.' :: _ => true
  | c :: cs => openers.contains c || ((c == '?' || c == ':' || c == '-') && blankNext cs)

/-- A mark of structure after the character `before`: a colon that a blank follows, or a hash that
a blank precedes. -/
def hasMarkAfter : Char → List Char → Bool
  | _, [] => false
  | before, c :: cs =>
    (c == ':' && blankNext cs) || (c == '#' && isBlank before) || hasMarkAfter c cs

def hasMark : List Char → Bool
  | [] => false
  | c :: cs => startsWithMark (c :: cs) || hasMarkAfter c cs

/-- Whether two neighbours satisfy `p` and `q`. -/
def hasNeighbours (p q : Char → Bool) (cs : List Char) : Bool :=
  (cs.zip cs.tail).any fun (a, b) => p a && q b

/-- Whether only escapes keep the text: it holds a character that is not printable, or a space at
the end of a line. -/
def needsEscapes (cs : List Char) : Bool :=
  cs.any (fun c => !isPrintable c) || hasNeighbours (· == ' ') isBreak cs

def allowsPlain (cs : List Char) : Bool :=
  !needsEscapes cs && !cs.any isBreak && !hasMark cs && cs.head? != some ' ' &&
    cs.getLast? != some ' '

def allowsSingle (cs : List Char) : Bool :=
  !needsEscapes cs && !hasNeighbours isBreak (· == ' ') cs

def allowsLiteral (cs : List Char) : Bool :=
  !needsEscapes cs && cs.getLast? != some ' '

/-- The style of a string. -/
def ScalarStyle.of (cs : List Char) : ScalarStyle :=
  if cs.contains '\n' then if allowsLiteral cs then .literal else .double
  else if allowsPlain cs && !isAmbiguous cs then .plain
  else if allowsSingle cs then .single
  else .double

def spaces (n : Nat) : List Char := List.replicate n ' '

/-- The text of a string between single quotes, where a quote is written twice. What follows a
line break starts at the column `indent`; `fresh` tells that nothing was written on the line. -/
def singleBody (indent : Nat) : Bool → List Char → List Char
  | fresh, [] => if fresh then spaces indent else []
  | fresh, c :: cs =>
    if isBreak c then c :: singleBody indent true cs
    else
      (if fresh then spaces indent else []) ++ (if c == '\'' then ['\'', '\''] else [c]) ++
        singleBody indent false cs

/-- The lowest `width` hexadecimal digits of a number, in upper case. -/
def hexDigits : Nat → Nat → List Char
  | 0, _ => []
  | width + 1, n => hexDigits width (n / 16) ++ [(Text.hexChar (n % 16)).toUpper]

/-- The letters of the characters that have an escape of one letter. -/
def shortEscapes : List (Nat × Char) :=
  [(0x00, '0'), (0x07, 'a'), (0x08, 'b'), (0x09, 't'), (0x0A, 'n'), (0x0B, 'v'), (0x0C, 'f'),
    (0x0D, 'r'), (0x1B, 'e'), (0x22, '"'), (0x5C, '\\'), (0x85, 'N'), (0xA0, '_'), (0x2028, 'L'),
    (0x2029, 'P')]

/-- The escape of a character: its letter if it has one, else its code with two, four or eight
digits. -/
def escape (c : Char) : List Char :=
  let n := c.toNat
  '\\' :: match shortEscapes.find? (·.1 == n) with
    | some (_, letter) => [letter]
    | none =>
      if n ≤ 0xFF then 'x' :: hexDigits 2 n
      else if n ≤ 0xFFFF then 'u' :: hexDigits 4 n
      else 'U' :: hexDigits 8 n

/-- The text of a character between double quotes. -/
def doubleChar (c : Char) : List Char :=
  if !isPrintable c || isBreak c || c == '"' || c == '\\' then escape c else [c]

/-- The text of the lines of a literal block, each from the column `indent` on; empty lines have
no indentation. -/
def literalBody (indent : Nat) : Bool → List Char → List Char
  | _, [] => []
  | fresh, c :: cs =>
    if isBreak c then c :: literalBody indent true cs
    else (if fresh then spaces indent else []) ++ c :: literalBody indent false cs

/-- The width of the indentation, given where a reader could not find it out by itself. -/
def indentHint : List Char → List Char
  | [] => []
  | c :: _ => if c == ' ' || isBreak c then ['2'] else []

/-- What becomes of the line breaks at the end: the last is dropped, all are kept, or one is
kept. -/
def endHint (cs : List Char) : List Char :=
  match cs.reverse with
  | [] => ['-']
  | [c] => if isBreak c then ['+'] else ['-']
  | c :: d :: _ => if !isBreak c then ['-'] else if isBreak d then ['+'] else []

/-- The text of a string whose further lines start at the column `indent`. -/
def scalarText (indent : Nat) (s : String) : String :=
  let cs := s.toList
  String.ofList <| match ScalarStyle.of cs with
    | .plain => cs
    | .single => '\'' :: singleBody indent false cs ++ ['\'']
    | .double => '"' :: cs.flatMap doubleChar ++ ['"']
    | .literal => '|' :: indentHint cs ++ endHint cs ++ '\n' :: literalBody indent true cs

end ServiceContract.Yaml
