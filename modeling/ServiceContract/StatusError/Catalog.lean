import ServiceContract.Schema.Enumeration
import ServiceContract.StatusError.Basic

/-! # The catalog of status errors

The unit variants of the enums that are marked as status errors, by the qualified name of the
enum and the name of the variant. The documentation of a variant has its messages: the first
line that is not tagged, and a line tagged with a locale for each other one.
-/

namespace ServiceContract

open Source

/-- The errors of a program by enum and variant. -/
abbrev ErrorCatalog := List ((String × String) × StatusError)

namespace ErrorCatalog

/-- What the documentation of a variant says, read line by line. -/
structure VariantDocs where
  messages : List (String × String) := []
  description : List String := []
  canBeTalk : Bool := false

/-- Adds a line; a line after `@` begins with a tag. -/
def VariantDocs.addLine (d : VariantDocs) (line : String) : VariantDocs :=
  match line.toList with
  | '@' :: tagged =>
    let tag := String.ofList (tagged.takeWhile fun c => !Unicode.isWhitespace c)
    let text := Unicode.trim
      (String.ofList ((tagged.dropWhile fun c => !Unicode.isWhitespace c).drop 1))
    if tag == "errTalk" then { d with canBeTalk := true }
    else if text.isEmpty then d
    else { d with messages := insertSorted tag text d.messages }
  | _ =>
    if (d.messages.lookup StatusError.defaultLocale).isNone then
      { d with messages := insertSorted StatusError.defaultLocale line d.messages }
    else { d with description := d.description ++ [line] }

def VariantDocs.ofLines (lines : List String) : VariantDocs :=
  ((lines.map Unicode.trim).filter fun l => !l.isEmpty).foldl VariantDocs.addLine {}

/-- The error that a variant with a code declares. -/
def ofVariant (v : Variant) (code : Int) : StatusError :=
  let docs := VariantDocs.ofLines (docLines v.attrs)
  { key := v.name
    code
    messages := docs.messages
    description :=
      if docs.description.isEmpty then none else some (Text.join "\n" docs.description)
    canBeTalk := docs.canBeTalk }

/-- Whether an enum is marked as one of status errors. -/
def isMarked (e : EnumItem) : Bool :=
  hasDerive e.attrs "StatusError" || hasAttr e.attrs "status_error"

/-- The errors that an enum declares. -/
def ofEnum (p : Program) (d : Declared EnumItem) : ErrorCatalog :=
  let scope : Scope := ⟨p, d.module, some d.item.name⟩
  let units := (EnumMember.discriminants scope 0 d.item.variants).filter fun (v, _) =>
    v.fields.isUnit
  units.map fun (v, code) => ((qualify d.module d.item.name, v.name), ofVariant v code)

/-- The catalog of a program; of two errors of one name the later counts. -/
def ofProgram (p : Program) : ErrorCatalog :=
  ((p.enums.filter fun d => isMarked d.item).flatMap (ofEnum p)).foldl
    (fun acc (name, e) => setKey name e acc) []

/-- The error of a variant of the enum with a qualified name. -/
def error? (c : ErrorCatalog) (enum variant : String) : Option StatusError :=
  c.lookup (enum, variant)

end ErrorCatalog

end ServiceContract
