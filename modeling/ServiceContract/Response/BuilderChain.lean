import ServiceContract.Constant.Scope

/-! # Builder chains

A response is built by a chain of calls on a value, `Response::new(x).with_status(201)`. Each
call that is known sets one part of the response, and of two that set the same part the outer one
counts, as it is carried out last. The arguments of such calls have to be constants.
-/

namespace ServiceContract

open Source

/-- The parts of a response that a builder chain sets. -/
structure ChainRules where
  status : Option Nat := none
  contentType : Option String := none
  schema : Option TypeExpr := none
  /-- File name and media type of an attachment. -/
  attachment : Option (String × String) := none
  deriving DecidableEq, Repr

namespace ChainRules

/-- A status that fits 16 bits. -/
def status? (n : Int) : Option Nat := if 0 ≤ n && n < UInt16.size then some n.toNat else none

/-- The rules with what one call of the chain sets, unless a call around it has set that. -/
def addCall (s : Scope) (rules : ChainRules) (method : String) (types : List TypeExpr)
    (args : List Expr) : Option ChainRules :=
  match method with
  | "with_status" =>
    (args.head?.bind s.evalInt).map fun n => { rules with status := rules.status.or (status? n) }
  | "with_content_type" =>
    (args.head?.bind s.evalStr).map fun c =>
      { rules with contentType := rules.contentType.or (some c) }
  | "with_schema" =>
    types.head?.map fun t => { rules with schema := rules.schema.or (some t) }
  | _ => some rules

/-- The rules with the attachment that the base of the chain may be. -/
def addBase (s : Scope) (rules : ChainRules) (function : Expr) (args : List Expr) :
    Option ChainRules :=
  match (calleePath? function).map List.reverse with
  | some ("new" :: "Attachment" :: _) =>
    (args[0]?.bind s.evalStr).bind fun name =>
      (args[1]?.bind s.evalStr).map fun type => { rules with attachment := some (name, type) }
  | _ => some rules

/-- Reads a chain from the outermost call inwards; there are no rules if a known call has an
argument that is not constant. -/
def scan (s : Scope) (rules : ChainRules) : Expr → Option ChainRules
  | .methodCall e method types _ args =>
    (rules.addCall s method types args).bind fun r => scan s r e
  | .call f args => rules.addBase s f args
  | .paren e | .ref e | .attempt e | .await e => scan s rules e
  | _ => some rules

/-- The rules of the first returned chain that sets anything. -/
def ofBody (s : Scope) (body : Block) : ChainRules :=
  ((returned body).findSome? fun e =>
    match scan s {} e with
    | some rules => if rules = {} then none else some rules
    | none => none).getD {}

end ChainRules

/-- The rules of the chains that a function returns. -/
def FnDecl.chainRules (f : FnDecl) (p : Program) : ChainRules := .ofBody (f.scope p) f.body

end ServiceContract
