import ServiceContract.Source.Grammar.Items
import ServiceContract.Source.Lexer

/-! # Reading sources

The grammar tied into a knot, and the readers for whole texts. Each use of one parser by another
goes one level down, so the number of tokens, with a factor for the parsers that one token passes
through, bounds the levels.
-/

namespace ServiceContract.Source

open Source.Parser

/-- The grammar for trees of bounded depth. -/
def grammar : Nat → Grammar
  | 0 => .empty
  | n + 1 =>
    { type := fun plus ts => (grammar n).typeStep plus ts
      expr := fun record ts => (grammar n).exprStep record ts
      early := fun ts => (grammar n).earlyStep ts
      unary := fun record ts => (grammar n).unaryStep record ts
      pat := fun ts => (grammar n).patStep ts
      stmts := fun ts => (grammar n).stmtsStep ts
      item := fun ts => (grammar n).itemStep ts }

/-- The grammar for a given sequence of tokens. -/
def grammarFor (ts : List Token) : Grammar := grammar (8 * sizeOfTokens ts + 16)

/-- Reads a text that has to be used up. -/
def parse? {α : Type} (p : Grammar → Parser α) (text : String) : Option α := do
  let ts ← Lexer.tokens? text.toList
  all (p (grammarFor ts)) ts

def parseType? (text : String) : Option TypeExpr :=
  (parse? (fun g => g.type true) text).map (·.shape)

def parseExpr? (text : String) : Option Expr := parse? (fun g => g.expr true) text

def parseBlock? (text : String) : Option Block := parse? (fun g => g.block) text

def parseItem? (text : String) : Option Item := (parse? (fun g => g.item) text).map (·.1)

/-- A text without the line at its start that names an interpreter. -/
def withoutInterpreter (cs : List Char) : List Char :=
  match cs with
  | '#' :: '!' :: rest =>
    match Lexer.skipBlanks (rest.length + 1) rest with
    | '[' :: _ => cs
    | _ => cs.dropWhile (· != '\n')
  | cs => cs

/-- Reads the declarations of a source file. -/
def parseFile? (text : String) : Option (List Item) :=
  let cs := match text.toList with
    | c :: rest => if c.toNat == 0xFEFF then rest else c :: rest
    | [] => []
  parse? (fun g => do
    let _ ← g.innerAttrs
    let found ← many g.item
    return found.map (·.1)) (String.ofList (withoutInterpreter cs))

end ServiceContract.Source
