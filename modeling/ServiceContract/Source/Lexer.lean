import ServiceContract.Source.Token
import ServiceContract.Text.Unicode

/-! # From text to tokens

Comments and white space separate tokens. A documentation comment stands for the attribute that
holds its text. The readers of single tokens return the characters they take and the rest.
-/

namespace ServiceContract.Source.Lexer

open Text Unicode

/-- The characters of one token and what follows it. -/
abbrev Scan := Option (List Char × List Char)

def isIdentStart (c : Char) : Bool := c == '_' || isXidStart c

/-- White space of a source text, direction marks included. -/
def isBlank (c : Char) : Bool :=
  isWhitespace c || c.toNat == 0x200e || c.toNat == 0x200f

/-- Splits before a line end; of a carriage return and a line feed only the first is dropped. -/
def lineOf : List Char → List Char × List Char
  | [] => ([], [])
  | '\n' :: cs => ([], '\n' :: cs)
  | '\r' :: '\n' :: cs => ([], '\n' :: cs)
  | c :: cs => let (l, r) := lineOf cs; (c :: l, r)

/-- The inside of a block comment after `depth` openings, last character first, and what follows
the comment. -/
def blockRest : Nat → List Char → List Char → Option (List Char × List Char)
  | depth, acc, '/' :: '*' :: cs => blockRest (depth + 1) ('*' :: '/' :: acc) cs
  | 0, _, '*' :: '/' :: _ => none
  | 1, acc, '*' :: '/' :: cs => some (acc, cs)
  | depth + 2, acc, '*' :: '/' :: cs => blockRest (depth + 1) ('/' :: '*' :: acc) cs
  | depth, acc, c :: cs => blockRest depth (c :: acc) cs
  | _, _, [] => none

/-- The text between the marks of the block comment that starts here, and what follows it. -/
def blockComment : List Char → Option (List Char × List Char)
  | '/' :: '*' :: cs => (blockRest 1 [] cs).map fun (inside, rest) => (inside.reverse, rest)
  | _ => none

/-- Skips white space and comments that are no documentation. -/
def skipBlanks : Nat → List Char → List Char
  | 0, cs => cs
  | n + 1, cs =>
    match cs with
    | '/' :: '/' :: '/' :: '/' :: _ => skipBlanks n (lineOf cs).2
    | '/' :: '/' :: '/' :: _ => cs
    | '/' :: '/' :: '!' :: _ => cs
    | '/' :: '/' :: _ => skipBlanks n (lineOf cs).2
    | '/' :: '*' :: '*' :: '/' :: rest => skipBlanks n rest
    | '/' :: '*' :: '*' :: '*' :: _ => (blockComment cs).elim cs fun c => skipBlanks n c.2
    | '/' :: '*' :: '*' :: _ => cs
    | '/' :: '*' :: '!' :: _ => cs
    | '/' :: '*' :: _ => (blockComment cs).elim cs fun c => skipBlanks n c.2
    | c :: rest => if isBlank c then skipBlanks n rest else cs
    | [] => []

/-- Whether every carriage return is followed by a line feed. -/
def noBareReturn : List Char → Bool
  | '\r' :: '\n' :: cs => noBareReturn cs
  | '\r' :: _ => false
  | _ :: cs => noBareReturn cs
  | [] => true

/-- The text of the documentation comment that starts here, whether it documents what is around
it, and what follows it. -/
def docComment (cs : List Char) : Option (List Char × Bool × List Char) := do
  let (text, inner, rest) ← match cs with
    | '/' :: '/' :: '!' :: cs => let (l, r) := lineOf cs; some (l, true, r)
    | '/' :: '*' :: '!' :: _ => (blockComment cs).map fun (t, r) => (t.drop 1, true, r)
    | '/' :: '/' :: '/' :: '/' :: _ => none
    | '/' :: '/' :: '/' :: cs => let (l, r) := lineOf cs; some (l, false, r)
    | '/' :: '*' :: '*' :: '*' :: _ => none
    | '/' :: '*' :: '*' :: _ => (blockComment cs).map fun (t, r) => (t.drop 1, false, r)
    | _ => none
  if noBareReturn text then return (text, inner, rest) else none

/-- A character of a text written as a string literal. -/
def escapeChar (c : Char) (next : Option Char) : List Char :=
  if c.toNat == 0 then
    if next.any fun d => '0' ≤ d && d ≤ '7' then ['\\', 'x', '0', '0'] else ['\\', '0']
  else if c == '"' then ['\\', '"']
  else if c == '\\' then ['\\', '\\']
  else if c == '\n' then ['\\', 'n']
  else if c == '\r' then ['\\', 'r']
  else if c == '\t' then ['\\', 't']
  else if c.toNat < 32 || c.toNat == 127 then
    ['\\', 'u', '{'] ++ (if 16 ≤ c.toNat then [hexChar (c.toNat / 16)] else []) ++
      [hexChar (c.toNat % 16), '}']
  else [c]

def escapeText : List Char → List Char
  | [] => []
  | c :: cs => escapeChar c cs.head? ++ escapeText cs

/-- A text written as a string literal. -/
def stringLiteral (cs : List Char) : String :=
  String.ofList ('"' :: escapeText cs ++ ['"'])

/-- An identifier without a raw marker. -/
def plainIdent : List Char → Scan
  | c :: cs =>
    if isIdentStart c then some (c :: cs.takeWhile isXidContinue, cs.dropWhile isXidContinue)
    else none
  | [] => none

/-- An identifier, raw or not; the names of path roots cannot be raw. -/
def anyIdent (cs : List Char) : Scan :=
  match cs with
  | 'r' :: '#' :: rest => do
    let (name, rest) ← plainIdent rest
    if ["_", "super", "self", "Self", "crate"].contains (String.ofList name) then none
    else return ('r' :: '#' :: name, rest)
  | cs => plainIdent cs

/-- Starts of literals that are no identifiers. -/
def literalStarts : List String :=
  ["r\"", "r#\"", "r##", "b\"", "b'", "br\"", "br#", "c\"", "cr\"", "cr#"]

def ident (cs : List Char) : Scan :=
  if literalStarts.any fun w => (dropPrefix? w.toList cs).isSome then none else anyIdent cs

/-- Adds a type suffix to the characters of a literal. -/
def withSuffix (taken rest : List Char) : List Char × List Char :=
  match plainIdent rest with
  | some (suffix, rest) => (taken ++ suffix, rest)
  | none => (taken, rest)

/-- What a quoted literal holds. -/
inductive Quote
  | text
  | bytes
  | cText
  deriving DecidableEq, Repr

/-- The two digits of a byte escape. -/
def byteEscape (q : Quote) (a b : Char) : Bool :=
  match q with
  | .text => '0' ≤ a && a ≤ '7' && (hexDigit? b).isSome
  | .bytes => (hexDigit? a).isSome && (hexDigit? b).isSome
  | .cText => (hexDigit? a).isSome && (hexDigit? b).isSome && !(a == '0' && b == '0')

/-- Whether a number is the code point of a character. -/
def isScalar (n : Nat) : Bool := n < 0xD800 || (0xE000 ≤ n && n < 0x110000)

/-- The digits of a code point escape after its opening brace: value, characters taken (last
first) and rest. -/
def codePoint : Nat → Nat → List Char → List Char → Option (Nat × List Char × List Char)
  | len, value, acc, c :: cs =>
    match hexDigit? c with
    | some d => if len == 6 then none else codePoint (len + 1) (16 * value + d) (c :: acc) cs
    | none =>
      if c == '_' && 0 < len then codePoint len value (c :: acc) cs
      else if c == '}' && 0 < len then
        if isScalar value then some (value, c :: acc, cs) else none
      else none
  | _, _, _, [] => none

/-- White space after a backslash at the end of a line, added to `acc`; a text must follow. -/
def lineGap : Bool → List Char → List Char → Option (List Char × List Char)
  | true, acc, '\n' :: cs => lineGap false ('\n' :: acc) cs
  | true, _, _ => none
  | false, acc, c :: cs =>
    if c == '\r' then lineGap true (c :: acc) cs
    else if c == ' ' || c == '\t' || c == '\n' then lineGap false (c :: acc) cs
    else some (acc, c :: cs)
  | false, _, [] => none

/-- A quoted literal after its opening quote; `acc` holds what is taken, last first. -/
def cooked (q : Quote) : Nat → List Char → List Char → Scan
  | 0, _, _ => none
  | n + 1, acc, cs =>
    match cs with
    | '"' :: rest => some (withSuffix ('"' :: acc).reverse rest)
    | '\r' :: '\n' :: rest => cooked q n ('\n' :: '\r' :: acc) rest
    | '\r' :: _ => none
    | '\\' :: 'x' :: a :: b :: rest =>
      if byteEscape q a b then cooked q n (b :: a :: 'x' :: '\\' :: acc) rest else none
    | '\\' :: 'u' :: '{' :: rest =>
      if q = .bytes then none
      else
        match codePoint 0 0 ('{' :: 'u' :: '\\' :: acc) rest with
        | some (value, acc, rest) =>
          if q = .cText && value == 0 then none else cooked q n acc rest
        | none => none
    | '\\' :: '\n' :: rest =>
      match lineGap false ('\n' :: '\\' :: acc) rest with
      | some (acc, rest) => cooked q n acc rest
      | none => none
    | '\\' :: '\r' :: rest =>
      match lineGap true ('\r' :: '\\' :: acc) rest with
      | some (acc, rest) => cooked q n acc rest
      | none => none
    | '\\' :: c :: rest =>
      if ['n', 'r', 't', '\\', '\'', '"'].contains c || (c == '0' && q != .cText) then
        cooked q n (c :: '\\' :: acc) rest
      else none
    | c :: rest =>
      if (q = .bytes && !isAscii c) || (q = .cText && c.toNat == 0) then none
      else cooked q n (c :: acc) rest
    | [] => none

/-- A raw literal after its opening quote, closed by a quote and `hashes` marks. -/
def rawBody (q : Quote) (hashes : Nat) : List Char → List Char → Scan
  | acc, '"' :: rest =>
    if (rest.take hashes).length == hashes && (rest.take hashes).all (· == '#') then
      some (withSuffix (acc.reverse ++ '"' :: rest.take hashes) (rest.drop hashes))
    else rawBody q hashes ('"' :: acc) rest
  | acc, '\r' :: '\n' :: rest => rawBody q hashes ('\n' :: '\r' :: acc) rest
  | _, '\r' :: _ => none
  | acc, c :: rest =>
    if (q = .bytes && !isAscii c) || (q = .cText && c.toNat == 0) then none
    else rawBody q hashes (c :: acc) rest
  | _, [] => none

/-- A raw literal after the letters of its mark, which are given. -/
def raw (q : Quote) (mark : List Char) (cs : List Char) : Scan :=
  let hashes := cs.takeWhile (· == '#')
  match cs.dropWhile (· == '#') with
  | '"' :: rest =>
    if 255 < hashes.length then none
    else rawBody q hashes.length ('"' :: (mark ++ hashes).reverse) rest
  | _ => none

/-- The content of a character or byte literal after its opening quote. -/
def oneChar (q : Quote) (acc : List Char) : List Char → Scan
  | '\\' :: 'x' :: a :: b :: rest =>
    if byteEscape q a b then some (b :: a :: 'x' :: '\\' :: acc, rest) else none
  | '\\' :: 'u' :: '{' :: rest =>
    if q = .bytes then none
    else (codePoint 0 0 ('{' :: 'u' :: '\\' :: acc) rest).map fun (_, acc, rest) => (acc, rest)
  | '\\' :: c :: rest =>
    if ['n', 'r', 't', '\\', '\'', '"', '0'].contains c then some (c :: '\\' :: acc, rest) else none
  | c :: rest => if q = .bytes && !isAscii c then none else some (c :: acc, rest)
  | [] => none

/-- A character or byte literal after its opening quote, which `acc` ends in. -/
def character (q : Quote) (acc : List Char) (cs : List Char) : Scan :=
  match oneChar q acc cs with
  | some (acc, '\'' :: rest) => some (withSuffix ('\'' :: acc).reverse rest)
  | _ => none

def isDigitOrGap (c : Char) : Bool := c.isDigit || c == '_'

/-- The sign and digits of an exponent: what is taken and the rest, if a digit is there. -/
def exponent (cs : List Char) : Scan :=
  let gaps := cs.takeWhile (· == '_')
  let cs := cs.dropWhile (· == '_')
  let (sign, cs) := match cs with
    | '+' :: cs => (['+'], cs)
    | '-' :: cs => (['-'], cs)
    | cs => ([], cs)
  let digits := cs.takeWhile isDigitOrGap
  if digits.any Char.isDigit then some (gaps ++ sign ++ digits, cs.dropWhile isDigitOrGap) else none

/-- The digits of a floating point literal: a point or an exponent is among them. -/
def floatDigits (cs : List Char) : Scan :=
  match cs with
  | c :: _ =>
    if !c.isDigit then none
    else
      let whole := cs.takeWhile isDigitOrGap
      match cs.dropWhile isDigitOrGap with
      | '.' :: rest =>
        if rest.head?.any fun c => c == '.' || isIdentStart c then none
        else
          let taken := whole ++ '.' :: rest.takeWhile isDigitOrGap
          let rest := rest.dropWhile isDigitOrGap
          match rest with
          | 'e' :: more => some (withExponent taken 'e' more rest)
          | 'E' :: more => some (withExponent taken 'E' more rest)
          | rest => some (taken, rest)
      | 'e' :: rest => (exponent rest).map fun (x, rest) => (whole ++ 'e' :: x, rest)
      | 'E' :: rest => (exponent rest).map fun (x, rest) => (whole ++ 'E' :: x, rest)
      | _ => none
  | [] => none
where
  withExponent (taken : List Char) (mark : Char) (more rest : List Char) : List Char × List Char :=
    match exponent more with
    | some (x, rest) => (taken ++ mark :: x, rest)
    | none => (taken, rest)

/-- The digits of a whole number to a base: what is taken, whether a digit is among it, and the
rest. A decimal digit that the base lacks refuses the number. -/
def baseDigits (base : Nat) : Bool → List Char → List Char → Option (List Char × Bool × List Char)
  | some?, acc, c :: cs =>
    if c == '_' then
      if !some? && base == 10 then none else baseDigits base some? (c :: acc) cs
    else
      match hexDigit? c with
      | some d =>
        if d < base then baseDigits base true (c :: acc) cs
        else if c.isDigit then none
        else some (acc.reverse, some?, c :: cs)
      | none => some (acc.reverse, some?, c :: cs)
  | some?, acc, [] => some (acc.reverse, some?, [])

/-- The digits of a whole number literal. -/
def intDigits (cs : List Char) : Scan := do
  let (mark, base, cs) := match cs with
    | '0' :: 'x' :: cs => (['0', 'x'], 16, cs)
    | '0' :: 'o' :: cs => (['0', 'o'], 8, cs)
    | '0' :: 'b' :: cs => (['0', 'b'], 2, cs)
    | cs => ([], 10, cs)
  let (ds, some?, rest) ← baseDigits base false [] cs
  if some? then return (mark ++ ds, rest) else none

/-- A number with its suffix; no letter or digit may follow. -/
def endOfNumber : Scan → Scan
  | none => none
  | some (taken, rest) =>
    let (taken, rest) := withSuffix taken rest
    if rest.head?.any isXidContinue then none else some (taken, rest)

def literal (cs : List Char) : Scan :=
  let quoted := match cs with
    | '"' :: rest => cooked .text (rest.length + 1) ['"'] rest
    | 'r' :: rest => raw .text ['r'] rest
    | 'b' :: '"' :: rest => cooked .bytes (rest.length + 1) ['"', 'b'] rest
    | 'b' :: 'r' :: rest => raw .bytes ['b', 'r'] rest
    | 'c' :: '"' :: rest => cooked .cText (rest.length + 1) ['"', 'c'] rest
    | 'c' :: 'r' :: rest => raw .cText ['c', 'r'] rest
    | 'b' :: '\'' :: rest => character .bytes ['\'', 'b'] rest
    | '\'' :: rest => character .text ['\''] rest
    | _ => none
  (quoted.orElse fun _ => endOfNumber (floatDigits cs)).orElse fun _ => endOfNumber (intDigits cs)

/-- A punctuation character that starts no comment. -/
def punctChar : List Char → Option (Char × List Char)
  | '/' :: '/' :: _ => none
  | '/' :: '*' :: _ => none
  | c :: cs => if "~!@#$%^&*-=+|;:,<.>/?'".toList.contains c then some (c, cs) else none
  | [] => none

/-- A punctuation character; an apostrophe must start a lifetime. -/
def punct (cs : List Char) : Option (Token × List Char) := do
  let (c, rest) ← punctChar cs
  if c == '\'' then
    let (_, after) ← anyIdent rest
    let rawName := (dropPrefix? ['r', '#'] rest).isSome
    if after.head? == some '\'' || (after.head? == some '#' && !rawName) then none
    else return (.punct c true, rest)
  else return (.punct c (punctChar rest).isSome, rest)

/-- A token that is no group. -/
def leaf (cs : List Char) : Option (Token × List Char) :=
  match literal cs with
  | some (taken, rest) => some (.literal (String.ofList taken), rest)
  | none =>
    match punct cs with
    | some found => some found
    | none => (ident cs).map fun (name, rest) => (.ident (String.ofList name), rest)

def opens? : Char → Option Delimiter
  | '(' => some .paren
  | '[' => some .bracket
  | '{' => some .brace
  | _ => none

def closes? : Char → Option Delimiter
  | ')' => some .paren
  | ']' => some .bracket
  | '}' => some .brace
  | _ => none

/-- The attribute that a documentation comment stands for, last token first. -/
def docTokens (text : List Char) (inner : Bool) : List Token :=
  .group .bracket [.ident "doc", .punct '=' false, .literal (stringLiteral text)] ::
    ((if inner then [.punct '!' false] else []) ++ [.punct '#' false])

/-- Reads tokens. `acc` holds those of the innermost open group, last first, and `frames` those
of the groups around it. -/
def run : Nat → List (Delimiter × List Token) → List Token → List Char → Option (List Token)
  | 0, _, _, _ => none
  | n + 1, frames, acc, cs =>
    let cs := skipBlanks n cs
    match docComment cs with
    | some (text, inner, rest) => run n frames (docTokens text inner ++ acc) rest
    | none =>
      match cs with
      | [] => if frames.isEmpty then some acc.reverse else none
      | c :: rest =>
        match opens? c, closes? c with
        | some d, _ => run n ((d, acc) :: frames) [] rest
        | none, some d =>
          match frames with
          | (e, outer) :: frames =>
            if d = e then run n frames (.group d acc.reverse :: outer) rest else none
          | [] => none
        | none, none =>
          match leaf cs with
          | some (t, rest) => run n frames (t :: acc) rest
          | none => none

/-- The tokens of a text, a byte order mark at its start skipped. -/
def tokens? (cs : List Char) : Option (List Token) :=
  let cs := match cs with
    | c :: rest => if c.toNat == 0xFEFF then rest else cs
    | [] => []
  run (cs.length + 2) [] [] cs

end ServiceContract.Source.Lexer
