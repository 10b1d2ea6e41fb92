import ServiceContract.Constant.Scope
import ServiceContract.Schema.Basic

/-! # Enumerations

Two declarations enumerate values: an enum of unit variants only, and constants of one type of
which at least one has a label. The values are ordered by rank, never by declaration: numbers by
value before texts, equal ranks by name.
-/

namespace ServiceContract

open Source

/-- What the members of an enumeration are ordered by. -/
inductive Rank
  | int (value : Int)
  | str (value : String)
  deriving DecidableEq, Repr

def Rank.lt : Rank → Rank → Bool
  | .int a, .int b => a < b
  | .int _, .str _ => true
  | .str _, .int _ => false
  | .str a, .str b => a < b

/-- A member of an enumeration. -/
structure EnumMember where
  name : String
  value : Json
  rank : Rank
  label : Option String

namespace EnumMember

/-- The order of members: by rank, then by name. -/
def le (a b : EnumMember) : Bool :=
  a.rank.lt b.rank || (a.rank == b.rank && !(b.name < a.name))

/-- The number that follows a discriminant, which stays in range. -/
def following (n : Int) : Int := min (n + 1) Int64.maxValue.toInt

/-- The variants with their discriminants: written ones, or one more than the one before. -/
def discriminants (s : Scope) (next : Int) : List Variant → List (Variant × Int)
  | [] => []
  | v :: vs =>
    let n := (v.discriminant.bind s.evalInt).getD next
    (v, n) :: discriminants s (following n) vs

/-- The serialized name of a variant. -/
def serializedName (container : SerialAttrs) (v : Variant) : String :=
  (SerialAttrs.ofAttrs v.attrs).rename.getD (container.renamed v.name)

/-- The members of an enum that has only unit variants. -/
def ofVariants (s : Scope) (item : EnumItem) : Option (List EnumMember) :=
  if item.variants.isEmpty || item.variants.any (fun v => !v.fields.isUnit) then none
  else
    let container := SerialAttrs.ofAttrs item.attrs
    let kept := (discriminants s 0 item.variants).filter fun (v, _) =>
      !(SerialAttrs.ofAttrs v.attrs).skip
    some (kept.map fun (v, n) =>
      { name := v.name
        value := .str (serializedName container v)
        rank := .int n
        label := (Docs.ofAttrs v.attrs).summary })

/-- The argument of a constructor of the type. -/
def constructorArg? (type : String) : Expr → Option Expr
  | .call f [a] =>
    match calleeName? f with
    | some name => if name == type || name == "Self" then some a else none
    | none => none
  | .paren e => constructorArg? type e
  | _ => none

/-- The member that a constant makes, if it folds to a number or a text. -/
def ofConst (p : Program) (type : String) (c : ConstDecl) : Option EnumMember :=
  let scope : Scope := ⟨p, c.module, c.selfType⟩
  let label := (Docs.ofAttrs c.item.attrs).summary
  match scope.eval ((constructorArg? type c.item.value).getD c.item.value) with
  | some (.int n) => some ⟨c.name, .ofInt n, .int n, label⟩
  | some (.str s) => some ⟨c.name, .str s, .str s, label⟩
  | _ => none

/-- The constants of a type, if any of them has a label. -/
def ofConstants (p : Program) (type : String) : Option (List EnumMember) :=
  let members := (p.constsOfType type).filterMap (ofConst p type)
  if members.any (·.label.isSome) then some members else none

/-- The line of a labelled member in a description. -/
def line? (m : EnumMember) : Option String :=
  m.label.map fun label => "- " ++ m.name ++ ": " ++ label

end EnumMember

namespace Schema

/-- The schema with its description followed by a paragraph. -/
def withParagraph (text : String) (s : Schema) : Schema :=
  { s with description := some (match s.description with
      | some d => d ++ "\n\n" ++ text
      | none => text) }

/-- Restricts a schema to the values of an enumeration and lists the labels. -/
def enumerate (members : List EnumMember) (s : Schema) : Schema :=
  let members := members.mergeSort EnumMember.le
  let s := { s with values := some (members.map (·.value)) }
  if members.all (·.label.isNone) then s
  else
    let labels := members.map fun m => Json.str (m.label.getD m.name)
    (s.withExtension labelsKey (.arr labels)).withParagraph
      (Text.join "\n" (members.filterMap EnumMember.line?))

end Schema

end ServiceContract
