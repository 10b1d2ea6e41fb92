import ServiceContract.Text.Basic

/-! # Tokens

A source text is a sequence of token trees: identifiers, single punctuation characters, literals,
and groups between matching delimiters. A punctuation character is joint when another one follows
it without a gap. A raw identifier keeps its marker in its text.
-/

namespace ServiceContract.Source

/-- The brackets around a group. -/
inductive Delimiter
  | paren
  | brace
  | bracket
  deriving DecidableEq, Repr

/-- A token tree. -/
inductive Token
  | ident (text : String)
  | punct (char : Char) (joint : Bool)
  | literal (text : String)
  | group (delimiter : Delimiter) (content : List Token)
  deriving Repr

instance : Inhabited Token := ⟨.ident ""⟩

def Delimiter.opening : Delimiter → String
  | .paren => "("
  | .brace => "\x7b "
  | .bracket => "["

def Delimiter.closing : Delimiter → String
  | .paren => ")"
  | .brace => "\x7d"
  | .bracket => "]"

mutual

/-- The number of tokens of a tree, groups and their contents counted. -/
def Token.size : Token → Nat
  | .group _ ts => sizeOfTokens ts + 1
  | _ => 1

def sizeOfTokens : List Token → Nat
  | [] => 0
  | t :: ts => t.size + sizeOfTokens ts

end

mutual

/-- The text of a tree; the brackets of a block have blanks inside. -/
def Token.text : Token → String
  | .ident s => s
  | .punct c _ => String.ofList [c]
  | .literal s => s
  | .group d ts =>
    d.opening ++ textAfter true ts ++
      (if d = .brace && !ts.isEmpty then " " else "") ++ d.closing

/-- The text of trees after another one; no blank follows a joint character. -/
def textAfter (joint : Bool) : List Token → String
  | [] => ""
  | t :: ts =>
    (if joint then "" else " ") ++ t.text ++
      textAfter (match t with | .punct _ j => j | _ => false) ts

end

/-- The text of a token sequence, one blank between neighbours unless the first is joint. -/
def tokensText (ts : List Token) : String := textAfter true ts

end ServiceContract.Source
