import ServiceContract.Source.Syntax

/-! # Reading token sequences

A parser takes the tokens that are left and returns a value and the tokens after it, or fails.
What stands next is asked of the tokens themselves. A group is read by a parser of its own that
has to use up its content.
-/

namespace ServiceContract.Source

/-- A parser over tokens. -/
abbrev Parser (α : Type) := StateT (List Token) Option α

/-- Words that are no identifiers. -/
def keywords : List String :=
  ["_", "abstract", "as", "async", "await", "become", "box", "break", "const", "continue",
    "crate", "do", "dyn", "else", "enum", "extern", "false", "final", "fn", "for", "if", "impl",
    "in", "let", "loop", "macro", "match", "mod", "move", "mut", "override", "priv", "pub", "ref",
    "return", "Self", "self", "static", "struct", "super", "trait", "true", "try", "type",
    "typeof", "unsafe", "unsized", "use", "virtual", "where", "while", "yield"]

namespace Tokens

/-- Whether the joined punctuation `w` comes next. -/
def startsWith : List Char → List Token → Bool
  | [], _ => true
  | [c], .punct d _ :: _ => c == d && d != '\''
  | c :: w, .punct d joint :: ts => c == d && d != '\'' && joint && startsWith w ts
  | _, _ => false

def isPunct (w : String) (ts : List Token) : Bool := startsWith w.toList ts

/-- Whether the keyword `w` comes next. -/
def isWord (w : String) : List Token → Bool
  | .ident s :: _ => s == w
  | _ => false

def isAnyIdent : List Token → Bool
  | .ident _ :: _ => true
  | _ => false

def isIdent : List Token → Bool
  | .ident s :: _ => !keywords.contains s
  | _ => false

def isGroup (d : Delimiter) : List Token → Bool
  | .group e _ :: _ => d = e
  | _ => false

def isAnyGroup : List Token → Bool
  | .group _ _ :: _ => true
  | _ => false

def isLifetime : List Token → Bool
  | .punct '\'' true :: .ident _ :: _ => true
  | _ => false

/-- The literal that comes next and the tokens after it. A number may be negated. -/
def lit? : List Token → Option (Lit × List Token)
  | .literal s :: ts => some (Lit.ofText s, ts)
  | .ident "true" :: ts => some (.bool true, ts)
  | .ident "false" :: ts => some (.bool false, ts)
  | .punct '-' _ :: .literal s :: ts =>
    if (s.toList.head?.any Char.isDigit) then (Lit.number? true s).map (·, ts) else none
  | _ => none

def isLit (ts : List Token) : Bool := (lit? ts).isSome

/-- The tokens after the first one; a lifetime counts as one. -/
def skip : List Token → List Token
  | .punct '\'' _ :: .ident _ :: ts => ts
  | _ :: ts => ts
  | [] => []

end Tokens

open Tokens

namespace Parser

/-- What the tokens that are left say. -/
def peek (f : List Token → Bool) : Parser Bool := fun ts => some (f ts, ts)

/-- Succeeds if the tokens that are left are as wanted. -/
def guard (f : List Token → Bool) : Parser Unit := fun ts => if f ts then some ((), ts) else none

def punct (w : String) : Parser Unit := fun ts =>
  if isPunct w ts then some ((), ts.drop w.length) else none

/-- Takes the punctuation `w` if it is there. -/
def punct? (w : String) : Parser Bool := fun ts =>
  if isPunct w ts then some (true, ts.drop w.length) else some (false, ts)

def word (w : String) : Parser Unit := fun ts =>
  if isWord w ts then some ((), ts.drop 1) else none

/-- Takes the keyword `w` if it is there. -/
def word? (w : String) : Parser Bool := fun ts =>
  if isWord w ts then some (true, ts.drop 1) else some (false, ts)

def ident : Parser String
  | .ident s :: ts => if keywords.contains s then none else some (s, ts)
  | _ => none

def anyIdent : Parser String
  | .ident s :: ts => some (s, ts)
  | _ => none

def lit : Parser Lit := fun ts => lit? ts

def stringLit : Parser String := fun ts =>
  match lit? ts with
  | some (.str s, ts) => some (s, ts)
  | _ => none

def lifetime : Parser Unit
  | .punct '\'' true :: .ident _ :: ts => some ((), ts)
  | _ => none

/-- The content of the group that comes next. -/
def group (d : Delimiter) : Parser (List Token)
  | .group e content :: ts => if d = e then some (content, ts) else none
  | _ => none

/-- Any group: whether it stands between braces, and its content. -/
def anyGroup : Parser (Bool × List Token)
  | .group d content :: ts => some ((d = .brace, content), ts)
  | _ => none

/-- Runs a parser on tokens that it has to use up. -/
def all {α : Type} (p : Parser α) (ts : List Token) : Option α :=
  match p ts with
  | some (a, []) => some a
  | _ => none

/-- Reads the group that comes next with `p`. -/
def within {α : Type} (d : Delimiter) (p : Parser α) : Parser α := do
  let content ← group d
  fun ts => (all p content).map (·, ts)

/-- Tries `p`, and takes nothing if it fails. -/
def attempt? {α : Type} (p : Parser α) : Parser (Option α) := fun ts =>
  match p ts with
  | some (a, rest) => some (some a, rest)
  | none => some (none, ts)

/-- Runs `p` as long as `more` holds of the tokens that are left, at most `n` times. -/
def repeatWhile {α : Type} (more : List Token → Bool) (p : Parser α) : Nat → Parser (List α)
  | 0 => fun ts => if more ts then none else some ([], ts)
  | n + 1 => fun ts =>
    if more ts then
      match p ts with
      | some (a, rest) => (repeatWhile more p n rest).map fun (as, rest) => (a :: as, rest)
      | none => none
    else some ([], ts)

/-- Runs `p` as long as `more` holds of the tokens that are left. -/
def manyWhile {α : Type} (more : List Token → Bool) (p : Parser α) : Parser (List α) := fun ts =>
  repeatWhile more p (ts.length + 1) ts

/-- Runs `p` until no token is left. -/
def many {α : Type} (p : Parser α) : Parser (List α) := manyWhile (fun ts => !ts.isEmpty) p

/-- Items separated by `sep` up to a place where `stop` holds; the last one may be followed by a
separator. -/
def separatedLoop {α : Type} (sep : String) (stop : List Token → Bool) (p : Parser α) :
    Nat → Parser (List α)
  | 0 => fun _ => none
  | n + 1 => fun ts =>
    if stop ts then some ([], ts)
    else
      match p ts with
      | none => none
      | some (a, rest) =>
        if stop rest then some ([a], rest)
        else
          match punct sep rest with
          | none => none
          | some (_, rest) =>
            (separatedLoop sep stop p n rest).map fun (as, rest) => (a :: as, rest)

def separated {α : Type} (sep : String) (stop : List Token → Bool) (p : Parser α) :
    Parser (List α) := fun ts =>
  separatedLoop sep stop p (ts.length + 1) ts

/-- Items separated by commas that use up all tokens. -/
def commaList {α : Type} (p : Parser α) : Parser (List α) :=
  separated "," List.isEmpty p

end Parser

end ServiceContract.Source
