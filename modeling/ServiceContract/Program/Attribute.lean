import ServiceContract.Source.Parser
import ServiceContract.Text.WordCase

/-! # Attributes

What documentation comments and attributes say about a declaration. The entries of an attribute
are read one after the other; a mistake ends the reading, and what was read before it counts.
-/

namespace ServiceContract

open Source Parser Tokens

/-- The lines of a documentation comment, each without the blank it starts with. -/
def docLines (attrs : List Attr) : List String :=
  attrs.flatMap fun a => match a.content with
    | .value (.lit (.str s)) =>
      if a.path.isIdent "doc" then
        (Text.lines s).map fun l => Unicode.trimEnd ((Text.stripPrefix? " " l).getD l)
      else []
    | _ => []

/-- A documentation comment: its first line, and the rest. -/
structure Docs where
  summary : Option String := none
  description : Option String := none
  deriving DecidableEq, Repr

def Docs.ofAttrs (attrs : List Attr) : Docs :=
  let blank (l : String) : Bool := (Unicode.trim l).isEmpty
  match (docLines attrs).dropWhile blank with
  | [] => {}
  | first :: rest =>
    let description := Unicode.trim (Text.join "\n" rest)
    { summary := some (Unicode.trim first)
      description := if description.isEmpty then none else some description }

/-- The whole comment as one text. -/
def Docs.text (d : Docs) : Option String :=
  match d.summary, d.description with
  | some s, some t => some (s ++ "\n" ++ t)
  | some s, none => some s
  | none, _ => none

namespace Entries

/-- The path of an entry; keywords may stand in it. -/
def entryPath : Parser Path := do
  let rooted ← punct? "::"
  let first ← anyIdent
  let others ← manyWhile (isPunct "::") (do punct "::"; anyIdent)
  return { rooted, segments := first :: others }

/-- How one entry is read after its path: the new state, and the tokens after the entry unless
there is a mistake in it. -/
abbrev Handler (σ : Type) := Path → σ → List Token → σ × Option (List Token)

/-- Reads entries between commas; the answer tells whether there is no mistake. The number bounds
the entries. -/
def fold {σ : Type} (handle : Handler σ) : Nat → σ → List Token → σ × Bool
  | 0, s, _ => (s, false)
  | n + 1, s, ts =>
    match entryPath ts with
    | none => (s, false)
    | some (path, ts) =>
      match handle path s ts with
      | (s, none) => (s, false)
      | (s, some ts) =>
        if ts.isEmpty then (s, true)
        else
          match punct "," ts with
          | none => (s, false)
          | some (_, ts) => if ts.isEmpty then (s, true) else fold handle n s ts

/-- Reads the entries of the parentheses that come next. -/
def nested {σ : Type} (handle : Handler σ) (s : σ) (ts : List Token) : σ × Option (List Token) :=
  match ts with
  | .group .paren content :: rest =>
    match fold handle (content.length + 1) s content with
    | (s, true) => (s, some rest)
    | (s, false) => (s, none)
  | _ => (s, none)

/-- Passes over the value or the entries of an entry that is of no interest. -/
def skipEntry : Nat → List Token → Option (List Token)
  | 0, _ => none
  | n + 1, ts =>
    if isPunct "=" ts then
      match (do punct "="; (grammarFor ts).expr true : Parser Expr) ts with
      | some (_, rest) => some rest
      | none => none
    else if isGroup .paren ts then
      (nested (fun _ s ts => (s, skipEntry n ts)) () ts).2
    else some ts

def skip {σ : Type} (s : σ) (ts : List Token) : σ × Option (List Token) :=
  (s, skipEntry (sizeOfTokens ts + 1) ts)

/-- Reads `= value` with a parser and puts the value into the state. -/
def value {σ α : Type} (p : Parser α) (s : σ) (set : α → σ) (ts : List Token) :
    σ × Option (List Token) :=
  match (do punct "="; p : Parser α) ts with
  | some (a, rest) => (set a, some rest)
  | none => (s, none)

/-- Reads the entries of an attribute; an attribute without parentheses or brackets has none. -/
def ofAttr {σ : Type} (handle : Handler σ) (s : σ) (a : Attr) : σ :=
  match a.content with
  | .list [] => s
  | .list ts => (fold handle (ts.length + 1) s ts).1
  | _ => s

end Entries

/-- What the serialization attributes of a container, field or variant say. -/
structure SerialAttrs where
  rename : Option String := none
  renameAll : Option String := none
  skip : Bool := false
  default : Bool := false
  flatten : Bool := false
  transparent : Bool := false
  tag : Option String := none
  deriving DecidableEq, Repr

namespace SerialAttrs

def entry : Entries.Handler SerialAttrs := fun path s ts =>
  match path.ident? with
  | some "rename" =>
    if isPunct "=" ts then Entries.value stringLit s (fun v => { s with rename := some v }) ts
    else
      Entries.nested (fun p s ts =>
        if p.isIdent "serialize" then
          Entries.value stringLit s (fun v => { s with rename := some v }) ts
        else Entries.skip s ts) s ts
  | some "rename_all" => Entries.value stringLit s (fun v => { s with renameAll := some v }) ts
  | some "skip" => ({ s with skip := true }, some ts)
  | some "default" => Entries.skip { s with default := true } ts
  | some "flatten" => ({ s with flatten := true }, some ts)
  | some "transparent" => ({ s with transparent := true }, some ts)
  | some "tag" => Entries.value stringLit s (fun v => { s with tag := some v }) ts
  | _ => Entries.skip s ts

def ofAttrs (attrs : List Attr) : SerialAttrs :=
  (attrs.filter fun a => a.path.isIdent "serde").foldl (Entries.ofAttr entry) {}

/-- The serialized name of a field or variant in this container. -/
def renamed (s : SerialAttrs) (ident : String) : String :=
  match s.renameAll with
  | some rule => WordCase.rename ident rule
  | none => ident

end SerialAttrs

/-- Where an operator field is read from. -/
inductive ParamLocation
  | query
  | path
  | cookie
  | header
  | body
  | form
  | urlEncoded
  | multipart
  deriving DecidableEq, Repr

namespace ParamLocation

def text : ParamLocation → String
  | query => "query"
  | path => "path"
  | cookie => "cookie"
  | header => "header"
  | body => "body"
  | form => "form"
  | urlEncoded => "urlencoded"
  | multipart => "multipart"

def all : List ParamLocation :=
  [query, path, cookie, header, body, form, urlEncoded, multipart]

def ofText? (s : String) : Option ParamLocation := all.find? fun l => l.text == s

/-- The message for a name that is no location. -/
def unknownMessage (s : String) : String := "unknown parameter location `" ++ s ++ "`"

/-- Locations that become parameters rather than a request body. -/
def isParameter : ParamLocation → Bool
  | query | path | cookie | header => true
  | _ => false

/-- The media type of the body that fields of a form are gathered in. -/
def formMediaType? : ParamLocation → Option String
  | form | multipart => some "multipart/form-data"
  | urlEncoded => some "application/x-www-form-urlencoded"
  | _ => none

end ParamLocation

/-- What the parameter attribute of an operator field says. -/
structure ParamAttr where
  location : Option ParamLocation := none
  name : Option String := none
  required : Option Bool := none
  default : Option String := none
  contentType : Option String := none
  security : Bool := false
  flatten : Bool := false
  deriving DecidableEq, Repr

namespace ParamAttr

def boolLit : Parser Bool := fun ts =>
  match lit? ts with
  | some (.bool b, ts) => some (b, ts)
  | _ => none

def entry : Entries.Handler ParamAttr := fun path s ts =>
  match path.ident?.getD "" with
  | "name" => Entries.value stringLit s (fun v => { s with name := some v }) ts
  | "default" => Entries.value lit s (fun v => { s with default := some v.asText }) ts
  | "content_type" => Entries.value stringLit s (fun v => { s with contentType := some v }) ts
  | "required" =>
    if isPunct "=" ts then Entries.value boolLit s (fun v => { s with required := some v }) ts
    else ({ s with required := some true }, some ts)
  | "optional" => ({ s with required := some false }, some ts)
  | "security" => ({ s with security := true }, some ts)
  | "flatten" => ({ s with flatten := true }, some ts)
  | other =>
    match ParamLocation.ofText? other with
    | some l => ({ s with location := some l }, some ts)
    | none => Entries.skip s ts

/-- The first parameter attribute, if there is one. -/
def ofAttrs (attrs : List Attr) : Option ParamAttr :=
  (attrs.find? fun a => a.path.isIdent "param").map (Entries.ofAttr entry {})

end ParamAttr

/-- What the operator attributes of a struct override. -/
structure OperatorAttr where
  id : Option String := none
  tag : Option String := none
  summary : Option String := none
  method : Option String := none
  path : Option String := none
  status : Option Nat := none
  contentType : Option String := none
  response : Option String := none
  deriving DecidableEq, Repr

namespace OperatorAttr

/-- A whole number of 16 bits. -/
def wordLit : Parser Nat := fun ts =>
  match lit? ts with
  | some (.int negative n, ts) =>
    if n < UInt16.size && (!negative) then some (n, ts) else none
  | _ => none

def entry : Entries.Handler OperatorAttr := fun path s ts =>
  match path.ident?.getD "" with
  | "status" => Entries.value wordLit s (fun v => { s with status := some v }) ts
  | "id" => Entries.value stringLit s (fun v => { s with id := some v }) ts
  | "tag" => Entries.value stringLit s (fun v => { s with tag := some v }) ts
  | "summary" => Entries.value stringLit s (fun v => { s with summary := some v }) ts
  | "method" =>
    Entries.value stringLit s (fun v => { s with method := some (Unicode.toUpper v) }) ts
  | "path" => Entries.value stringLit s (fun v => { s with path := some v }) ts
  | "content_type" => Entries.value stringLit s (fun v => { s with contentType := some v }) ts
  | "response" => Entries.value stringLit s (fun v => { s with response := some v }) ts
  | _ => Entries.skip s ts

def ofAttrs (attrs : List Attr) : OperatorAttr :=
  (attrs.filter fun a => a.path.isIdent "operator").foldl (Entries.ofAttr entry) {}

end OperatorAttr

/-- The text of the first validation attribute, if it has a list. -/
def validateTag (attrs : List Attr) : Option String :=
  match attrs.find? fun a => a.path.isIdent "validate" with
  | some a => match a.content with
    | .list ts => some (tokensText ts)
    | _ => none
  | none => none

/-- Whether a validation text demands a value: the word `required` stands in it. -/
def validateRequires (tag : String) : Bool :=
  (Text.pieces (fun c => !Unicode.isAlphanumeric c && c != '_') tag.toList).any
    fun w => String.ofList w == "required"

/-- Whether a derive attribute lists a path that ends in `name`. -/
def hasDerive (attrs : List Attr) (name : String) : Bool :=
  (attrs.filter fun a => a.path.isIdent "derive").any fun a =>
    Entries.ofAttr (fun path found ts => (found || path.last? == some name, some ts)) false a

/-- Whether an attribute whose path ends in `name` is present. -/
def hasAttr (attrs : List Attr) (name : String) : Bool :=
  attrs.any fun a => a.path.last? == some name

end ServiceContract
