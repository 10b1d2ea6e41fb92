import ServiceContract.Text.Basic

/-! # Errors

What can go wrong while a document is generated. A field without a location only costs its
endpoint; every other error ends the run.
-/

namespace ServiceContract

/-- The cause of a failure. -/
inductive Error
  | io (text : String)
  | parse (file message : String)
  | invalidArgument (text : String)
  | noRootRouter (entryPoints : String)
  | duplicateOperationId (id first second : String)
  | unsupportedMapKey (key context : String)
  | unknownPrimitive (name context : String)
  | missingLocation (operator field : String)
  | serialization (text : String)
  /-- The expansion of a type leads to ever new types. -/
  | endlessType (type : String)
  deriving DecidableEq, Repr

namespace Error

def message : Error → String
  | io text => "I/O error: " ++ text
  | parse file text => "parse error in " ++ file ++ ": " ++ text
  | invalidArgument text => "invalid argument: " ++ text
  | noRootRouter entryPoints =>
    "no root router is passed to a serve call in entry point(s): " ++ entryPoints
  | duplicateOperationId id first second =>
    "duplicate operationId `" ++ id ++ "`: `" ++ first ++ "` and `" ++ second ++ "`"
  | unsupportedMapKey key context =>
    "unsupported map key type `" ++ key ++ "` in `" ++ context ++ "`"
  | unknownPrimitive name context =>
    "unknown primitive type `" ++ name ++ "` in `" ++ context ++ "`"
  | missingLocation operator field =>
    "operator `" ++ operator ++ "`: field `" ++ field ++ "` has no #[param(..)] location"
  | serialization text => "serialization error: " ++ text
  | endlessType type => "the expansion of `" ++ type ++ "` does not end"

/-- Whether the error ends the run rather than one endpoint. -/
def isFatal : Error → Bool
  | missingLocation _ _ => false
  | _ => true

end Error

end ServiceContract
