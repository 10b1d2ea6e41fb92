import ServiceContract.Error
import ServiceContract.Route.Replay

/-! # The tree of routes

The scopes under the one that is served. A scope without scopes under it is the end of a route,
whose operators are those of all scopes from the root down to it.
-/

namespace ServiceContract

/-- The operators from the root to the end of a route. -/
structure Route where
  chain : List OperatorRef
  deriving DecidableEq, Repr

namespace Route

def texts (r : Route) : List String := r.chain.map OperatorRef.text

def label (r : Route) : String := Text.join " > " r.texts

/-- The operator at the end. -/
def leaf? (r : Route) : Option OperatorRef := r.chain.getLast?

/-- The order of routes: by the texts of their operators. -/
def le (a b : Route) : Bool := !decide (b.texts < a.texts)

end Route

/-- The scopes of a program with the root. -/
structure RouteTree where
  forest : ScopeForest
  root : ScopeId

namespace RouteTree

/-- The routes that end in or under a scope, with the operators above it in front. The number
bounds the depth. -/
def routesUnder (t : RouteTree) : Nat → List OperatorRef → ScopeId → List Route
  | 0, _, _ => []
  | n + 1, above, id =>
    let scope := t.forest.scope id
    let chain := above ++ scope.operators
    if scope.children.isEmpty then if scope.operators.isEmpty then [] else [⟨chain⟩]
    else scope.children.flatMap (t.routesUnder n chain)

/-- All routes, sorted. -/
def routes (t : RouteTree) : List Route :=
  (t.routesUnder (t.forest.size + 1) [] t.root).mergeSort Route.le

/-- The tree of a program that is served from one of the entry points. -/
def ofProgram (p : Program) (entryPoints : List String) : Except Error RouteTree :=
  let s := ReplayState.ofProgram p entryPoints
  match s.root with
  | some root => .ok ⟨s.forest, root⟩
  | none => .error (.noRootRouter (Text.join ", " entryPoints))

end RouteTree

end ServiceContract
