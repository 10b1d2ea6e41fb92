import ServiceContract.Route.OperatorRef

/-! # The forest of scopes

A registration scope holds operators and has other scopes registered under it. A scope is put
under another one only if it stands under none yet and is not above the other, so that the scopes
are always a forest.
-/

namespace ServiceContract

/-- The number of a scope in the order of creation. -/
abbrev ScopeId := Nat

/-- A registration scope. -/
structure RouteScope where
  operators : List OperatorRef := []
  children : List ScopeId := []
  parent : Option ScopeId := none
  deriving Inhabited

/-- The scopes by number. -/
structure ScopeForest where
  scopes : Array RouteScope := #[]

namespace ScopeForest

def size (f : ScopeForest) : Nat := f.scopes.size

def scope (f : ScopeForest) (id : ScopeId) : RouteScope := f.scopes[id]?.getD {}

def parent? (f : ScopeForest) (id : ScopeId) : Option ScopeId := (f.scope id).parent

/-- A new scope that stands under no other one. -/
def add (f : ScopeForest) (operators : List OperatorRef) : ScopeId × ScopeForest :=
  (f.size, { scopes := f.scopes.push { operators } })

/-- Whether following parents from a scope leads to the candidate within so many steps. -/
def leadsTo (f : ScopeForest) (candidate : ScopeId) : Nat → ScopeId → Bool
  | 0, _ => false
  | n + 1, id =>
    id == candidate ||
      match f.parent? id with
      | some above => f.leadsTo candidate n above
      | none => false

/-- Whether a scope is another one or stands above it. -/
def isAncestor (f : ScopeForest) (candidate id : ScopeId) : Bool :=
  f.leadsTo candidate (f.size + 1) id

/-- Puts a scope under another one, unless it has a place already or stands above that one. -/
def link (f : ScopeForest) (parent child : ScopeId) : ScopeForest :=
  if (f.parent? child).isSome || f.isAncestor child parent then f
  else
    { scopes := (f.scopes.modify child fun s => { s with parent := some parent }).modify parent
        fun s => { s with children := s.children ++ [child] } }

/-- Adds operators to a scope. -/
def attach (f : ScopeForest) (id : ScopeId) (operators : List OperatorRef) : ScopeForest :=
  { scopes := f.scopes.modify id fun s => { s with operators := s.operators ++ operators } }

end ScopeForest

end ServiceContract
